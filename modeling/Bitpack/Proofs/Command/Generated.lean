import Bitpack.Proofs.Command.RoundTrip
import Bitpack.Proofs.Config
import Bitpack.Proofs.Element.Recode.Basic

/-!
A configuration that is generated for a file. Its slots are as wide as the scalars of the file and of
their family, so that packing and unpacking with it gives the file back. Doubles have no such slots,
and of a value that is no number nothing is said.
-/
namespace Bitpack

namespace Config

variable {d : Dtype}

theorem recode_defaultElement [Platform] [LawfulPlatform] (hd : d ≠ .float .double) {x : Scalar d}
    (hx : x.toDouble ≠ .nan) :
    (defaultElement d).recode x = x := by
  cases d with
  | int size => exact ElementType.recode_integer_of_le rfl rfl (Nat.le_refl _) x
  | uint size => exact ElementType.recode_integer_of_le rfl rfl (Nat.le_refl _) x
  | float format =>
      cases format with
      | half => exact ElementType.recode_float_of_le rfl (Nat.le_refl _) hx
      | single => exact ElementType.recode_float_of_le rfl (Nat.le_refl _) hx
      | double => exact absurd rfl hd

theorem inRange_ofFile (d : Dtype) {shape : List Nat}
    (hdims : ∀ n ∈ shape, n < Size.limit) : (ofFile d shape).InRange :=
  ⟨hdims, show 1 < 2 ^ 64 by decide, show 1 < 2 ^ 64 by decide⟩

end Config

namespace Console

variable {t : FileTree} {printed : String}

theorem outcome_generateConfig {t' : FileTree} {input : String} {array : NpyArray} {d : Dtype}
    (hinput : (NpyArray.load ⟨input⟩ : ExceptT Error (StateM FileTree) NpyArray).run t =
      (.ok array, t))
    (hdtype : array.dtype = .ok d)
    (hwrite : t.write ⟨configName⟩ (Bytes.ofText (Config.ofFile d array.shape).prettyText) =
      .ok t') :
    ∃ printed', outcome (generateConfig input : Console (StateM FileTree) Unit) printed t =
      (.ok (), printed', t') := by
  apply Exists.intro
  unfold generateConfig
  rw [outcome_bind_of_ok (outcome_load hinput), outcome_bind_of_ok (outcome_ofExcept hdtype []),
    outcome_bind_of_ok (outcome_print _)]
  dsimp only
  rw [outcome_bind_of_ok (outcome_writeText hwrite _)]
  rfl

theorem configured_ofFile {path : Path} (d : Dtype) {shape : List Nat}
    (hdims : ∀ n ∈ shape, n < Size.limit)
    (hread : t.read path = .ok (Bytes.ofText (Config.ofFile d shape).prettyText)) :
    Configured t path (Config.ofFile d shape) :=
  ⟨_, _, hread, Bytes.toText?_ofText _, Config.parse?_prettyText (Config.inRange_ofFile d hdims)⟩

section

variable [Platform]

/-- The generated configuration fits the file: its one block is as long as the last axis. -/
theorem exists_fits_ofFile {array : NpyArray} {d : Dtype} {values : List (Scalar d)} {last : Nat}
    (hloaded : array.Loaded) (hlast : array.shape.getLast? = some last)
    (hvalues : array.values d = .ok values) (hroom : array.data.length < Size.memoryLimit)
    (hbits : last * (Config.defaultElement d).bits < Size.limit) :
    ∃ (tensor : Tensor d) (l : Layout),
      Fits array (Config.ofFile d array.shape) tensor l ∧ tensor.values = values := by
  obtain ⟨tensor, l, hfits⟩ := @exists_fits _ array (Config.ofFile d array.shape) last hloaded rfl
    (hloaded.eq_of_values hvalues).1 hlast Nat.one_pos (Nat.one_dvd last) hroom hbits
  exact ⟨tensor, l, hfits, Except.ok.inj (hfits.values_eq.symm.trans hvalues)⟩

variable [LawfulPlatform]

theorem Fits.values_recoded_ofFile {array : NpyArray} {d : Dtype} {tensor : Tensor d} {l : Layout}
    (hfits : Fits array (Config.ofFile d array.shape) tensor l) (hd : d ≠ .float .double)
    (hnumbers : ∀ x ∈ tensor.values, x.toDouble ≠ .nan) :
    hfits.recoded.values = tensor.values := by
  change tensor.values.map (Config.defaultElement d).recode = tensor.values
  rw [List.map_congr_left fun x hx => Config.recode_defaultElement hd (hnumbers x hx), List.map_id']

/-- An array file of any type but doubles and in either byte order, with no value that is no number,
comes back from a generated configuration: the type and the shape are those of the file, and so is
every byte of the values. The configuration must be another file than the array and the words, the
format has to have room for the length of the header, and the data and the bits of a row must have
sizes that fit. -/
theorem generated_config_lossless {input : String} {words output : Option String}
    {array : NpyArray} {d : Dtype} {values : List (Scalar d)} {last : Nat}
    (hinput : (NpyArray.load ⟨input⟩ : ExceptT Error (StateM FileTree) NpyArray).run t =
      (.ok array, t))
    (hlast : array.shape.getLast? = some last) (hdtype : array.dtype = .ok d)
    (hdouble : d ≠ .float .double) (hvalues : array.values d = .ok values)
    (hnumbers : ∀ x ∈ values, x.toDouble ≠ .nan)
    (hgenerated : t.Writable ⟨configName⟩) (hwords : t.Writable ⟨words.getD "words.txt"⟩)
    (houtput : NpyArray.Savable t ⟨output.getD "output.npy"⟩)
    (hinput_ne : t.resolve ⟨input⟩ ≠ t.resolve ⟨configName⟩)
    (hwords_ne : t.resolve ⟨configName⟩ ≠ t.resolve ⟨words.getD "words.txt"⟩)
    (hstorable : Npy.Header.Storable d array.shape)
    (hroom : array.data.length < Size.memoryLimit)
    (hbits : last * (Config.defaultElement d).bits < Size.limit) :
    ∃ printed t₁ printed' t₂ printed'' t₃ recovered,
      outcome (generateConfig input : Console (StateM FileTree) Unit) "" t =
        (.ok (), printed, t₁) ∧
      outcome (pack input (some configName) words : Console (StateM FileTree) Unit) "" t₁ =
        (.ok (), printed', t₂) ∧
      outcome (unpack (words.getD "words.txt") (some configName) output :
        Console (StateM FileTree) Unit) "" t₂ = (.ok (), printed'', t₃) ∧
      (NpyArray.load ⟨output.getD "output.npy"⟩ : ExceptT Error (StateM FileTree) NpyArray).run t₃ =
        (.ok recovered, t₃) ∧
      recovered.dtype = array.dtype ∧ recovered.shape = array.shape ∧
      recovered.data = array.data := by
  obtain ⟨⟨bytes, hbytes, hread⟩, -⟩ := NpyArray.load_run_eq_ok_iff.mp hinput
  have hloaded := NpyArray.loaded_of_read hread
  obtain ⟨hwidth, hdata⟩ := hloaded.eq_of_values hvalues
  -- the configuration is written, and the array is still there
  obtain ⟨t₁, hwrite, hsame, hwritten, hkept⟩ :=
    hgenerated.exists_written (Bytes.ofText (Config.ofFile d array.shape).prettyText)
  obtain ⟨printed, hgenerate⟩ : ∃ printed,
      outcome (generateConfig input : Console (StateM FileTree) Unit) "" t =
        (.ok (), printed, t₁) :=
    outcome_generateConfig hinput hdtype hwrite
  have hinput₁ : (NpyArray.load ⟨input⟩ : ExceptT Error (StateM FileTree) NpyArray).run t₁ =
      (.ok array, t₁) :=
    NpyArray.load_run_eq_ok_iff.mpr ⟨⟨bytes, hkept _ _ hbytes hinput_ne, hread⟩, rfl⟩
  have hconfig₁ := configured_ofFile d hloaded.dims_lt hwritten
  -- it fits the array, and the values come out of their slots as they are
  obtain ⟨tensor, l, hfits, htensor⟩ := exists_fits_ofFile hloaded hlast hvalues hroom hbits
  have hrecoded : hfits.recoded.values = values := by
    rw [hfits.values_recoded_ofFile hdouble (htensor ▸ hnumbers), htensor]
  obtain ⟨printed', t₂, hpack, -, printed'', t₃, hunpack, hload⟩ :=
    load_after_unpack hinput₁ hconfig₁ hfits Nat.one_pos (hwords.of_sameDirectories hsame)
      (hgenerated.resolve_ne hwords hsame hwords_ne) (houtput.of_sameDirectories hsame) hstorable
  refine ⟨printed, t₁, printed', t₂, printed'', t₃, _, hgenerate, hpack, hunpack, hload, ?_, rfl, ?_⟩
  · rw [hdtype]
    exact Npy.Descr.dtype_ofDtype d
  · change hfits.recoded.values.flatMap Scalar.toLittleEndian = array.data
    rw [hrecoded]
    exact hdata

end

open scoped Platform.Release

def signedZeroFile : Bytes :=
  Npy.Header.magic ++ [1, 0, 58, 0] ++
    Bytes.ofText "\x7b'descr': '>f2', 'fortran_order': False, 'shape': (2,), \x7d\n" ++
    [0x80, 0x00, 0x7C, 0x00]

def signedZeroArray : NpyArray :=
  ⟨⟨⟨'f', 2, true⟩, false, [2]⟩, [0x00, 0x80, 0x00, 0x7C]⟩

def signedZeroTree : FileTree :=
  ⟨[(["in.npy"], .file signedZeroFile)], []⟩

theorem generated_config_lossless_big_endian :
    ∃ printed t₁ printed' t₂ printed'' t₃ recovered,
      outcome (generateConfig "in.npy" : Console (StateM FileTree) Unit) "" signedZeroTree =
        (.ok (), printed, t₁) ∧
      outcome (pack "in.npy" (some configName) none : Console (StateM FileTree) Unit) "" t₁ =
        (.ok (), printed', t₂) ∧
      outcome (unpack "words.txt" (some configName) none : Console (StateM FileTree) Unit) "" t₂ =
        (.ok (), printed'', t₃) ∧
      (NpyArray.load ⟨"output.npy"⟩ : ExceptT Error (StateM FileTree) NpyArray).run t₃ =
        (.ok recovered, t₃) ∧
      recovered.dtype = .ok (.float .half) ∧ recovered.shape = [2] ∧
      recovered.data = [0x00, 0x80, 0x00, 0x7C] := by
  have hinput : (NpyArray.load ⟨"in.npy"⟩ : ExceptT Error (StateM FileTree) NpyArray).run
      signedZeroTree = (.ok signedZeroArray, signedZeroTree) :=
    NpyArray.load_run_eq_ok_iff.mpr ⟨⟨_, FileTree.read_eq_ok_iff.mpr
      ⟨["in.npy"], ⟨rfl, by decide⟩, rfl⟩, by decide +kernel⟩, rfl⟩
  have hvalues : signedZeroArray.values (.float .half) = .ok [0x8000, 0x7C00] := by decide +kernel
  have hnumbers : ∀ x ∈ [(0x8000 : Scalar (.float .half)), 0x7C00], x.toDouble ≠ .nan := by
    intro x hx
    rcases List.mem_pair.mp hx with rfl | rfl <;> decide +kernel
  have hconfig : signedZeroTree.Writable ⟨configName⟩ :=
    ⟨["stream_config.json"], ⟨rfl, by decide⟩, by decide⟩
  have hwords : signedZeroTree.Writable ⟨(none : Option String).getD "words.txt"⟩ :=
    ⟨["words.txt"], ⟨rfl, by decide⟩, by decide⟩
  have houtput : NpyArray.Savable signedZeroTree ⟨(none : Option String).getD "output.npy"⟩ :=
    ⟨["output.npy"], ⟨rfl, by decide⟩, by decide, by decide +kernel⟩
  obtain ⟨printed, t₁, printed', t₂, printed'', t₃, recovered, hgenerate, hpack, hunpack, hload,
    hdtype, hshape, hdata⟩ :=
    generated_config_lossless hinput rfl rfl (by decide) hvalues hnumbers hconfig hwords houtput
      (by decide +kernel) (by decide +kernel)
      (Npy.Header.storable_of_length _ (by decide) (by decide)) (by decide) (by decide)
  exact ⟨printed, t₁, printed', t₂, printed'', t₃, recovered, hgenerate, hpack, hunpack, hload,
    hdtype, hshape, hdata⟩

/-- The configuration of an array of no rows can ask for too many bits in a row, and the hidden file can
be in the way whatever the configuration. -/
theorem generated_config_stopped :
    (NpyArray.load ⟨"in.npy"⟩ : ExceptT Error (StateM FileTree) NpyArray).run longRowsTree =
      (.ok longRowsArray, longRowsTree) ∧
    longRowsTree.Writable ⟨configName⟩ ∧ longRowsTree.Writable ⟨"words.txt"⟩ ∧
    NpyArray.Savable longRowsTree ⟨"output.npy"⟩ ∧
    let generated := outcome (generateConfig "in.npy" : Console (StateM FileTree) Unit) ""
      hiddenDirectoryTree
    let packed := outcome (pack "in.npy" (some configName) none : Console (StateM FileTree) Unit) ""
      generated.2.2
    generated.1 = .ok () ∧ packed.1 = .ok () ∧
      (outcome (unpack "words.txt" (some configName) none : Console (StateM FileTree) Unit) ""
        packed.2.2).1 = .error [.context (.unpacking "words.txt"), .error (.io .isADirectory)] ∧
    letI := Platform.throughSingle true
    let generated := outcome (generateConfig "in.npy" : Console (StateM FileTree) Unit) ""
      longRowsTree
    generated.1 = .ok () ∧
      (outcome (pack "in.npy" (some configName) none : Console (StateM FileTree) Unit) ""
        generated.2.2).1 = .error [.error (.size .overflow)] := by
  have hconfig : longRowsTree.Writable ⟨configName⟩ :=
    ⟨["stream_config.json"], ⟨rfl, by decide⟩, by decide⟩
  have hwords : longRowsTree.Writable ⟨"words.txt"⟩ := ⟨["words.txt"], ⟨rfl, by decide⟩, by decide⟩
  have houtput : NpyArray.Savable longRowsTree ⟨"output.npy"⟩ :=
    ⟨["output.npy"], ⟨rfl, by decide⟩, by decide, by decide +kernel⟩
  exact ⟨load_longRows, hconfig, hwords, houtput, by decide +kernel⟩

end Console

end Bitpack
