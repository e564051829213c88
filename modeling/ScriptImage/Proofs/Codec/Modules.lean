import ScriptImage.Proofs.Codec.Images
import ScriptImage.Proofs.Distinct

/-!
Object modules in their stored form. Besides its image a module has two tables of imports, which
hold no entry twice, and the addresses of text pushes, which are stored in ascending order.
-/

namespace ScriptImage

namespace ObjectModule

/-! ### Tables without repetition -/

section New

variable {α : Type} [DecidableEq α] {d : Decoder α} {duplicate : Corruption} {P : α → Prop}

theorem reads_decodeNew {f : α → List UInt8} {xs ys : List α} (h : (ys ++ xs).Nodup)
    (hd : ∀ x ∈ xs, d.Reads (f x) x) :
    (decodeNew d duplicate xs.length ys).Reads (xs.flatMap f) (ys ++ xs) := by
  induction xs generalizing ys with
  | nil =>
      rw [List.append_nil]
      exact Decoder.reads_pure ys
  | cons x xs ih =>
      have hnew : x ∉ ys := by
        intro hx
        exact (List.nodup_append.mp h).2.2 x hx x List.mem_cons_self rfl
      refine (hd x List.mem_cons_self).bind ?_
      rw [if_neg hnew]
      have hnodup : (ys ++ [x] ++ xs).Nodup := by simpa using h
      have hrest := ih hnodup fun y hy => hd y (List.mem_cons_of_mem _ hy)
      rwa [List.append_assoc] at hrest

/-- A table without repetition is read behind its count. -/
theorem reads_new {β : Type} {f : α → List UInt8} {xs : List α} {k : List α → Decoder β}
    {bs : List UInt8} {y : β} (hxs : ListFits P xs) (hnodup : xs.Nodup)
    (hsize : ∀ x, 8 ≤ (f x).length) (hd : ∀ x, P x → d.Reads (f x) x)
    (hk : (k xs).Reads bs y) :
    (Decoder.count 8 >>= fun n => decodeNew d duplicate n [] >>= k).Reads
      (Bytes.list f xs ++ bs) y := by
  have htable : (decodeNew d duplicate xs.length []).Reads (xs.flatMap f) xs :=
    reads_decodeNew hnodup fun x hx => hd x (hxs.all x hx)
  have hlength : xs.length * max 8 1 ≤ (xs.flatMap f).length :=
    Decoder.length_flatMap_ge fun x _ => hsize x
  rw [Bytes.list, List.append_assoc]
  refine (htable.bind hk).counted hxs.length ?_
  rw [List.length_append]
  exact Nat.le_add_right_of_le hlength

theorem yields_decodeNew (hd : d.Yields P) (n : Nat) {ys : List α} (hys : ys.Nodup)
    (hall : ∀ y ∈ ys, P y) :
    (decodeNew d duplicate n ys).Yields fun xs =>
      xs.length = ys.length + n ∧ xs.Nodup ∧ ∀ x ∈ xs, P x := by
  induction n generalizing ys with
  | zero => exact Decoder.yields_pure ⟨rfl, hys, hall⟩
  | succ n ih =>
      refine hd.bind fun x hx => ?_
      split
      · exact Decoder.yields_fail _
      · rename_i hnew
        have hnodup : (ys ++ [x]).Nodup := by
          rw [← List.concat_eq_append]
          exact hys.concat hnew
        have hmem : ∀ y ∈ ys ++ [x], P y := by
          intro y hy
          rcases List.mem_append.mp hy with hy | hy
          · exact hall y hy
          · exact List.mem_singleton.mp hy ▸ hx
        intro c xs c' hxs
        obtain ⟨hlength, hrest⟩ := ih hnodup hmem c xs c' hxs
        rw [List.length_append, List.length_singleton] at hlength
        exact ⟨by omega, hrest⟩

end New

/-! ### Modules -/

/-- Each part of the module is something the decoder gives. -/
structure Storable (m : ObjectModule) : Prop where
  name : TextFits m.name
  image : m.image.Storable
  importedVars : ListFits (fun v => TextFits v.name) m.importedVars
  nodupVars : m.importedVars.Nodup
  importedScripts : ListFits (fun s => TextFits s.name) m.importedScripts
  nodupScripts : m.importedScripts.Nodup
  textPushes : m.textPushes.Pairwise (· < ·)
  pushCount : m.textPushes.length < 0x100000000

theorem reads_importedVar {v : ImportedVar} (h : TextFits v.name) :
    ImportedVar.decode.Reads v.encode v :=
  (Decoder.reads_text h).bind ((Decoder.reads_word v.index).bind_pure _)

theorem reads_importedScript {s : ImportedScript} (h : TextFits s.name) :
    ImportedScript.decode.Reads s.encode s :=
  (Decoder.reads_text h).bind ((Decoder.reads_word s.params).bind_pure _)

theorem yields_importedVar : ImportedVar.decode.Yields fun v => TextFits v.name :=
  Decoder.yields_text.bind fun _ hname => (Decoder.yields_any _).bind fun _ _ =>
    Decoder.yields_pure hname

theorem yields_importedScript : ImportedScript.decode.Yields fun s => TextFits s.name :=
  Decoder.yields_text.bind fun _ hname => (Decoder.yields_any _).bind fun _ _ =>
    Decoder.yields_pure hname

/-- What stands between the magic and the end of a file. -/
def decodeBody : Decoder ObjectModule := do
  let name ← Decoder.text
  let image ← Image.decodeBody
  let vars ← Decoder.count 8
  let importedVars ← decodeNew ImportedVar.decode .duplicateImportedVar vars []
  let scripts ← Decoder.count 8
  let importedScripts ← decodeNew ImportedScript.decode .duplicateImportedScript scripts []
  let pushes ← Decoder.list 4 Decoder.word
  return { name, image, importedVars, importedScripts, textPushes := ascending pushes }

theorem decode_eq_run : decode = (Decoder.magic magic >>= fun _ => decodeBody).whole.run := by
  have hdecoder : decoder = (Decoder.magic magic >>= fun _ => decodeBody).whole := by
    simp only [decoder, decodeBody, Decoder.whole, bind_assoc, pure_bind]
  rw [← hdecoder]
  rfl

theorem yields_decodeBody : decodeBody.Yields Storable := by
  refine Decoder.yields_text.bind fun name hname =>
    Image.yields_decodeBody.bind fun image himage => (Decoder.yields_count 8).bind fun vars hvars =>
      (yields_decodeNew yields_importedVar vars List.nodup_nil (by simp)).bind
        fun importedVars hv => (Decoder.yields_count 8).bind fun scripts hscripts =>
          (yields_decodeNew yields_importedScript scripts List.nodup_nil (by simp)).bind
            fun importedScripts hs => ?_
  refine (Decoder.yields_list (Decoder.yields_any Decoder.word) 4).bind fun pushes hpushes =>
    Decoder.yields_pure ?_
  obtain ⟨hpairwise, hlength⟩ := ascending_spec pushes
  have hvlength : importedVars.length = 0 + vars := hv.1
  have hslength : importedScripts.length = 0 + scripts := hs.1
  have hvfits : ListFits (fun v => TextFits v.name) importedVars := ⟨by omega, hv.2.2⟩
  have hsfits : ListFits (fun s => TextFits s.name) importedScripts := ⟨by omega, hs.2.2⟩
  exact ⟨hname, himage, hvfits, hv.2.1, hsfits, hs.2.1, hpairwise,
    Nat.lt_of_le_of_lt hlength hpushes.length⟩

theorem importedVar_length (v : ImportedVar) : 8 ≤ v.encode.length := by
  simp [ImportedVar.encode, Bytes.text, Bytes.blob, Bytes.count]
  omega

theorem importedScript_length (s : ImportedScript) : 8 ≤ s.encode.length := by
  simp [ImportedScript.encode, Bytes.text, Bytes.blob, Bytes.count]
  omega

theorem Storable.reads_body {m : ObjectModule} (h : m.Storable) :
    decodeBody.Reads (Bytes.text m.name ++ (m.image.encodeBody ++
      (Bytes.list ImportedVar.encode m.importedVars ++
        (Bytes.list ImportedScript.encode m.importedScripts ++
          Bytes.list Bytes.word m.textPushes)))) m := by
  refine (Decoder.reads_text h.name).bind (h.image.reads_body.bind ?_)
  refine reads_new h.importedVars h.nodupVars importedVar_length
    (fun _ => reads_importedVar) ?_
  refine reads_new h.importedScripts h.nodupScripts importedScript_length
    (fun _ => reads_importedScript) ?_
  have hfits : ListFits (fun _ => True) m.textPushes := ⟨h.pushCount, fun _ _ => trivial⟩
  have hpushes : (Decoder.list 4 Decoder.word).Reads (Bytes.list Bytes.word m.textPushes)
      m.textPushes :=
    Decoder.reads_list hfits (fun w => (Bytes.word_length w).ge) fun w _ => Decoder.reads_word w
  have hread := hpushes.bind_pure fun pushes => ({ m with textPushes := ascending pushes })
  rwa [ascending_of_pairwise h.textPushes] at hread

/-- A module that was read is storable. -/
theorem storable_of_decode {bs : List UInt8} {m : ObjectModule} (h : decode bs = .ok m) :
    m.Storable := by
  rw [decode_eq_run] at h
  exact ((Decoder.yields_any _).bind fun _ _ => yields_decodeBody).whole.run h

theorem storable_of_read {modules : List ObjectModule}
    (hread : ∀ m ∈ modules, ∃ bs, decode bs = .ok m) : ∀ m ∈ modules, m.Storable := by
  intro m hm
  obtain ⟨bs, hbs⟩ := hread m hm
  exact storable_of_decode hbs

/-- Reading back what was written gives the module exactly when it is storable. -/
theorem decode_encode_iff {m : ObjectModule} : decode m.encode = .ok m ↔ m.Storable := by
  constructor
  · exact storable_of_decode
  · intro h
    have hread : (Decoder.magic magic >>= fun _ => decodeBody).Reads m.encode m := by
      simp only [encode, List.append_assoc]
      exact (Decoder.reads_magic magic).bind h.reads_body
    rw [decode_eq_run]
    exact hread.run_whole

theorem mapM_decode_encode {modules : List ObjectModule} (h : ∀ m ∈ modules, m.Storable) :
    (modules.map encode).mapM decode = .ok modules := by
  induction modules with
  | nil => rfl
  | cons m ms ih =>
      have hrest := ih fun m' hm' => h m' (List.mem_cons_of_mem _ hm')
      rw [List.map_cons, List.mapM_cons, decode_encode_iff.mpr (h m List.mem_cons_self), hrest]
      rfl

end ObjectModule

end ScriptImage
