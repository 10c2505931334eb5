import Bitpack.Proofs.Command.Console

/-!
Packing a file and unpacking the words again, as two commands on one tree of files.
-/
namespace Bitpack.Console

open Packing (tensorWords)

section

variable [Platform] {t : FileTree} {printed : String}

/-- What packing starts from: an array file, a configuration that fits it, and the tensor in it. -/
structure Fits (array : NpyArray) (config : Config) (tensor : Tensor config.dtype) (l : Layout) :
    Prop where
  loaded : array.Loaded
  shape_eq : array.shape = config.shape
  values_eq : array.values config.dtype = .ok tensor.values
  tensor_shape : tensor.shape = config.shape
  layout_eq : Layout.ofShape config.shape config.options.blocks = .ok l
  count_eq : tensor.values.length = l.outer * l.innerFull
  outer_eq : l.outer = config.shape.dropLast.prod
  sized : Packing.Sized config.dtype config.shape config.element
  width_eq : Packing.wordBits config.shape config.element = .ok (l.slotBits config.element.bits)

theorem Fits.bits_lt {array : NpyArray} {config : Config} {tensor : Tensor config.dtype} {l : Layout}
    (h : Fits array config tensor l) : l.slotBits config.element.bits < Size.limit := by
  obtain ⟨-, -, -, hbits, -⟩ := h.sized.sizes_of_ofShape h.layout_eq
  exact hbits

theorem exists_fits {array : NpyArray} {config : Config} {last : Nat} (hloaded : array.Loaded)
    (hshape : array.shape = config.shape) (hwidth : array.wordSize = config.dtype.bytes)
    (hlast : config.shape.getLast? = some last) (hblocks : 0 < config.options.blocks)
    (hdvd : config.options.blocks ∣ last) (hroom : array.data.length < Size.memoryLimit)
    (hbits : last * config.element.bits < Size.limit) : ∃ tensor l, Fits array config tensor l := by
  obtain ⟨values, hvalues, hlength⟩ := hloaded.values_ok hwidth
  have hne : config.shape ≠ [] := by
    intro hnil
    rw [hnil] at hlast
    cases hlast
  have hfits : Size.Fits config.shape :=
    hshape ▸ Npy.Header.fits_of_elementCount hloaded.elementCount_ok
  have hbytes : config.shape.prod * config.dtype.bytes < Size.memoryLimit := by
    rw [← hshape, ← hwidth]
    exact hloaded.length_data ▸ hroom
  have hcount : values.length = config.shape.prod := hlength.trans (congrArg List.prod hshape)
  have htensor : ∃ tensor : Tensor config.dtype, tensor.shape = config.shape ∧
      tensor.values = values :=
    ⟨⟨config.shape, values, hne, hcount, hfits, hcount ▸ hbytes⟩, rfl, rfl⟩
  obtain ⟨tensor, hts, htv⟩ := htensor
  obtain ⟨l, hlayout, houter, _, _, hfull, hsize⟩ :=
    Packing.layout_of_dvd (hts ▸ hlast) hblocks hdvd
  rw [hts] at hlayout houter
  refine ⟨tensor, l, hloaded, hshape, htv ▸ hvalues, hts, hlayout, hsize, houter,
    Packing.sized_of_getLast? hlast hfits hbytes hbits, ?_⟩
  rw [Packing.wordBits_eq hlast hfits.dropLast _ hbits, Layout.slotBits, hfull]

/-- The tensor that comes out of the slots. -/
def Fits.recoded {array : NpyArray} {config : Config} {tensor : Tensor config.dtype} {l : Layout}
    (h : Fits array config tensor l) : Tensor config.dtype :=
  Packing.recoded config.dtype tensor config.element (h.tensor_shape.symm ▸ h.sized.bytes_lt)

def copies (config : Config) (tensor : Tensor config.dtype) (l : Layout) : List Word :=
  (List.replicate config.options.repetitions
    (tensorWords tensor config.element l config.options)).flatten

theorem outcome_pack_of_completes {t' : FileTree} {input configPath : String}
    {output : Option String} {array : NpyArray} {config : Config} {width : Nat} {words : List Word}
    (hinput : (NpyArray.load ⟨input⟩ : ExceptT Error (StateM FileTree) NpyArray).run t =
      (.ok array, t))
    (hconfig : Configured t ⟨configPath⟩ config) (hshape : array.shape = config.shape)
    (hwidth : Packing.wordBits config.shape config.element = .ok width)
    (hjob : Packing.Job.Completes
      (Packing.npyToWords config.dtype ⟨input⟩ config.element config.options) [] t () words t)
    (hwrite : t.write ⟨output.getD "words.txt"⟩ (Bytes.ofText (WordFile.write words)) = .ok t') :
    ∃ printed', outcome (pack input (some configPath) output : Console (StateM FileTree) Unit)
      printed t = (.ok (), printed', t') := by
  apply Exists.intro
  unfold pack
  rw [outcome_bind_of_ok (outcome_loadConfig hconfig)]
  dsimp only
  rw [outcome_bind_of_ok (outcome_load hinput), if_neg fun hne => hne hshape,
    outcome_bind_of_ok (outcome_ofExcept hwidth []),
    outcome_bind_of_ok (outcome_runJob hjob _), outcome_bind_of_ok (outcome_writeText hwrite _)]
  rfl

theorem outcome_pack {t' : FileTree} {input configPath : String} {output : Option String}
    {array : NpyArray} {config : Config} {tensor : Tensor config.dtype} {l : Layout}
    (hinput : (NpyArray.load ⟨input⟩ : ExceptT Error (StateM FileTree) NpyArray).run t =
      (.ok array, t))
    (hconfig : Configured t ⟨configPath⟩ config) (hfits : Fits array config tensor l)
    (hwrite : t.write ⟨output.getD "words.txt"⟩
      (Bytes.ofText (WordFile.write (copies config tensor l))) = .ok t') :
    ∃ printed', outcome (pack input (some configPath) output : Console (StateM FileTree) Unit)
      printed t = (.ok (), printed', t') := by
  have htensor : Tensor.ofValues array.shape tensor.values = .ok tensor :=
    Packing.ofValues_eq_ok_iff.mpr ⟨hfits.tensor_shape.trans hfits.shape_eq.symm, rfl⟩
  have hlayout : Layout.ofShape tensor.shape config.options.blocks = .ok l := by
    rw [hfits.tensor_shape]
    exact hfits.layout_eq
  have hjob : Packing.Job.Completes
      (Packing.npyToWords config.dtype ⟨input⟩ config.element config.options) [] t ()
      (copies config tensor l) t :=
    Packing.completes_npyToWords (Packing.completes_loadTensor hinput hfits.values_eq htensor)
      (Packing.settle_pack _ hlayout hfits.count_eq hfits.bits_lt) []
  exact outcome_pack_of_completes hinput hconfig hfits.shape_eq hfits.width_eq hjob hwrite

theorem wellFormed_of_mem_copies {array : NpyArray} {config : Config} {tensor : Tensor config.dtype}
    {l : Layout} (hfits : Fits array config tensor l) {w : Word}
    (hw : w ∈ copies config tensor l) :
    w.WellFormed ∧ w.width = l.slotBits config.element.bits := by
  obtain ⟨words, hwords, hw⟩ := List.mem_flatten.mp hw
  rw [List.eq_of_mem_replicate hwords] at hw
  obtain ⟨row, _, hholds⟩ := Packing.holds_of_mem_tensorWords hfits.count_eq hw
  exact ⟨hholds.wellFormed, hholds.width_eq⟩

theorem length_copies {array : NpyArray} {config : Config} {tensor : Tensor config.dtype}
    {l : Layout} (hfits : Fits array config tensor l) :
    (copies config tensor l).length = config.options.repetitions * config.shape.dropLast.prod := by
  unfold copies
  rw [List.length_flatten, List.map_replicate, List.sum_replicate_nat, Packing.length_tensorWords,
    hfits.outer_eq]

theorem outcome_unpack {input configPath : String} {output : Option String} {array : NpyArray}
    {config : Config} {tensor : Tensor config.dtype} {l : Layout} {place : List String}
    {content : Bytes} (hconfig : Configured t ⟨configPath⟩ config)
    (hfits : Fits array config tensor l)
    (hread : t.read ⟨input⟩ = .ok (Bytes.ofText (WordFile.write (copies config tensor l))))
    (hpath : t.Leads ⟨output.getD "output.npy"⟩ place) (hfile : t.get? place ≠ some .directory)
    (hhidden : t.get? (NpyArray.hiddenPlace place) ≠ some .directory)
    (hwrite : NpyArray.write config.shape (hfits.recoded).values = .ok content) :
    ∃ printed', outcome (unpack input (some configPath) output : Console (StateM FileTree) Unit)
      printed t =
        (.ok (), printed', Packing.savedTimes t place content config.options.repetitions) := by
  have hlayout : Layout.ofShape tensor.shape config.options.blocks = .ok l := by
    rw [hfits.tensor_shape]
    exact hfits.layout_eq
  have hunpack : ∀ rest, (Packing.unpack config.dtype config.shape config.element
      config.options).settle (tensorWords tensor config.element l config.options ++ rest) =
        (.ok hfits.recoded, rest) := by
    intro rest
    rw [← hfits.tensor_shape]
    exact Packing.settle_unpack_tensorWords config.dtype config.element hlayout
      (hfits.tensor_shape.symm ▸ hfits.sized) rest
  have hsaved : NpyArray.write hfits.recoded.shape hfits.recoded.values = .ok content := by
    rw [← hwrite, ← hfits.tensor_shape]
    rfl
  have hjob : Packing.Job.Completes (Packing.wordsToNpy config.dtype config.shape
      ⟨output.getD "output.npy"⟩ config.element config.options) (copies config tensor l) t () []
      (Packing.savedTimes t place content config.options.repetitions) := by
    rw [← List.append_nil (copies config tensor l)]
    exact Packing.completes_wordsToNpy hunpack hpath hfile hhidden hsaved
  apply Exists.intro
  unfold unpack
  rw [outcome_bind_of_ok (outcome_loadConfig hconfig)]
  dsimp only
  rw [outcome_bind_of_ok (outcome_ofExcept hfits.width_eq []),
    outcome_bind_of_ok (outcome_readWords hread fun w hw => wellFormed_of_mem_copies hfits hw),
    outcome_bind_of_ok (outcome_runJob hjob _)]
  rfl

theorem Fits.exists_saved {array : NpyArray} {config : Config} {tensor : Tensor config.dtype}
    {l : Layout} (hfits : Fits array config tensor l)
    (hstorable : Npy.Header.Storable config.dtype config.shape) :
    ∃ content, NpyArray.write config.shape hfits.recoded.values = .ok content ∧
      NpyArray.read content = .ok (NpyArray.ofValues config.shape hfits.recoded.values) := by
  have hloaded := hfits.loaded
  obtain ⟨hwidth, -⟩ := hloaded.eq_of_values hfits.values_eq
  have hcount : Npy.Header.elementCount config.shape = .ok config.shape.prod :=
    hfits.shape_eq ▸ hloaded.elementCount_ok
  have hvalues : hfits.recoded.values.length = config.shape.prod := by
    rw [hfits.recoded.length_values, ← hfits.tensor_shape]
    rfl
  have hsize : config.shape.prod * config.dtype.bytes < Size.limit := by
    rw [← hfits.shape_eq, ← hwidth]
    exact hloaded.size_lt
  exact ⟨_, NpyArray.write_of_length hcount hvalues,
    NpyArray.read_write (hfits.shape_eq ▸ hloaded.dims_lt) hstorable hcount hvalues hsize⟩

theorem load_after_unpack {input configPath : String} {words output : Option String}
    {array : NpyArray} {config : Config} {tensor : Tensor config.dtype} {l : Layout}
    (hinput : (NpyArray.load ⟨input⟩ : ExceptT Error (StateM FileTree) NpyArray).run t =
      (.ok array, t))
    (hconfig : Configured t ⟨configPath⟩ config) (hfits : Fits array config tensor l)
    (hrepetitions : 0 < config.options.repetitions)
    (hwords : t.Writable ⟨words.getD "words.txt"⟩)
    (hdistinct : t.resolve ⟨configPath⟩ ≠ t.resolve ⟨words.getD "words.txt"⟩)
    (houtput : NpyArray.Savable t ⟨output.getD "output.npy"⟩)
    (hstorable : Npy.Header.Storable config.dtype config.shape) :
    ∃ printed t₁,
      outcome (pack input (some configPath) words : Console (StateM FileTree) Unit) "" t =
        (.ok (), printed, t₁) ∧
      t₁.read ⟨words.getD "words.txt"⟩ =
        .ok (Bytes.ofText (WordFile.write (copies config tensor l))) ∧
      ∃ printed' t₂,
        outcome (unpack (words.getD "words.txt") (some configPath) output :
          Console (StateM FileTree) Unit) "" t₁ = (.ok (), printed', t₂) ∧
        (NpyArray.load ⟨output.getD "output.npy"⟩ :
          ExceptT Error (StateM FileTree) NpyArray).run t₂ =
          (.ok (NpyArray.ofValues config.shape hfits.recoded.values), t₂) := by
  -- the first command writes the words and leaves the configuration
  obtain ⟨t₁, hwrite, hsame, hwritten, hkept⟩ :=
    hwords.exists_written (Bytes.ofText (WordFile.write (copies config tensor l)))
  have hconfig₁ : Configured t₁ ⟨configPath⟩ config :=
    hconfig.of_read fun content hread => hkept _ content hread hdistinct
  obtain ⟨printed, hpack⟩ := outcome_pack hinput hconfig hfits hwrite
  -- the second command finds both and saves the tensor
  obtain ⟨place, hpath, hfile, hhidden⟩ := houtput.of_sameDirectories hsame
  obtain ⟨content, hsaved, hread⟩ := hfits.exists_saved hstorable
  obtain ⟨printed', hunpack⟩ := outcome_unpack hconfig₁ hfits hwritten hpath hfile hhidden hsaved
  exact ⟨printed, t₁, hpack, hwritten, printed', _, hunpack,
    Packing.load_savedTimes hpath hfile hhidden hread hrepetitions⟩

/-- An array file that is packed and unpacked again with the same configuration comes back with the
shape and the type of the configuration and with every value encoded and decoded. The words stand in
one line each, as many in every replay as there are outer positions. Only the configuration has to be
another file than the words, since it is read a second time, the format has to have room for the
length of the header, and the data and the bits of a row must have sizes that fit. -/
theorem unpack_after_pack {input configPath : String} {words output : Option String}
    {array : NpyArray} {config : Config} {last : Nat}
    (hinput : (NpyArray.load ⟨input⟩ : ExceptT Error (StateM FileTree) NpyArray).run t =
      (.ok array, t))
    (hconfig : Configured t ⟨configPath⟩ config) (hshape : array.shape = config.shape)
    (hlast : config.shape.getLast? = some last) (hwidth : array.wordSize = config.dtype.bytes)
    (hblocks : 0 < config.options.blocks) (hdvd : config.options.blocks ∣ last)
    (hrepetitions : 0 < config.options.repetitions)
    (hwords : t.Writable ⟨words.getD "words.txt"⟩)
    (hdistinct : t.resolve ⟨configPath⟩ ≠ t.resolve ⟨words.getD "words.txt"⟩)
    (houtput : NpyArray.Savable t ⟨output.getD "output.npy"⟩)
    (hstorable : Npy.Header.Storable config.dtype config.shape)
    (hroom : array.data.length < Size.memoryLimit)
    (hbits : last * config.element.bits < Size.limit) :
    ∃ printed t₁ text,
      outcome (pack input (some configPath) words : Console (StateM FileTree) Unit) "" t =
        (.ok (), printed, t₁) ∧
      t₁.read ⟨words.getD "words.txt"⟩ = .ok (Bytes.ofText text) ∧
      (WordFile.lines text.toList).length =
        config.options.repetitions * config.shape.dropLast.prod ∧
      ∃ printed' t₂ recovered values values',
        outcome (unpack (words.getD "words.txt") (some configPath) output :
          Console (StateM FileTree) Unit) "" t₁ = (.ok (), printed', t₂) ∧
        (NpyArray.load ⟨output.getD "output.npy"⟩ :
          ExceptT Error (StateM FileTree) NpyArray).run t₂ = (.ok recovered, t₂) ∧
        recovered.shape = config.shape ∧ recovered.dtype = .ok config.dtype ∧
        array.values config.dtype = .ok values ∧ values.length = config.shape.prod ∧
        recovered.values config.dtype = .ok values' ∧
        ∀ p : Nat, values'[p]? =
          values[p]?.map fun x => config.element.decode config.dtype (config.element.encode x) := by
  obtain ⟨⟨bytes, _, hbytes⟩, _⟩ := NpyArray.load_run_eq_ok_iff.mp hinput
  have hloaded := NpyArray.loaded_of_read hbytes
  obtain ⟨tensor, l, hfits⟩ := exists_fits hloaded hshape hwidth hlast hblocks hdvd hroom hbits
  obtain ⟨printed, t₁, hpack, hwritten, printed', t₂, hunpack, hload⟩ :=
    load_after_unpack hinput hconfig hfits hrepetitions hwords hdistinct houtput hstorable
  have hlines : (WordFile.lines (WordFile.write (copies config tensor l)).toList).length =
      config.options.repetitions * config.shape.dropLast.prod := by
    rw [WordFile.lines_write fun w hw => (wellFormed_of_mem_copies hfits hw).1, List.length_map,
      length_copies hfits]
  refine ⟨printed, t₁, _, hpack, hwritten, hlines, printed', t₂, _, tensor.values, _, hunpack, hload,
    rfl, Npy.Descr.dtype_ofDtype config.dtype, hfits.values_eq, ?_, NpyArray.values_ofValues _ _,
    fun p => List.getElem?_map ..⟩
  rw [tensor.length_values, hfits.tensor_shape]

end

open scoped Platform.Release

def sampleConfig : Config :=
  ⟨.int .one, .int ⟨5, by decide, by decide⟩, [2, 4], ⟨true, 2, 2⟩⟩

def sampleValues : List (Scalar (.uint .one)) :=
  [200, 1, 2, 3, 4, 5, 16, 31]

def sampleTree : FileTree :=
  ⟨[(["in.npy"], .file (Npy.Header.write (.uint .one) [2, 4] ++
      sampleValues.flatMap Scalar.toLittleEndian)),
    (["config.json"], .file (Bytes.ofText ("\x7b\"npy_dtype\": \"int8\", \"elem_type\": \"INT5\", " ++
      "\"shape\": [2, 4], \"num_reps\": 2, \"multi_pixel_out\": 2\x7d")))], []⟩

theorem unpack_after_pack_two_blocks :
    ∃ printed t₁ text printed' t₂ recovered,
      outcome (pack "in.npy" (some "config.json") none : Console (StateM FileTree) Unit) ""
        sampleTree = (.ok (), printed, t₁) ∧
      t₁.read ⟨"words.txt"⟩ = .ok (Bytes.ofText text) ∧ (WordFile.lines text.toList).length = 4 ∧
      outcome (unpack "words.txt" (some "config.json") none : Console (StateM FileTree) Unit) ""
        t₁ = (.ok (), printed', t₂) ∧
      (NpyArray.load ⟨"output.npy"⟩ : ExceptT Error (StateM FileTree) NpyArray).run t₂ =
        (.ok recovered, t₂) ∧
      recovered.shape = [2, 4] ∧
      recovered.values (.int .one) = .ok [8, 1, 2, 3, 4, 5, -16, -1] := by
  have hstored : Npy.Header.Storable (.uint .one) [2, 4] :=
    Npy.Header.storable_of_length _ (by decide) (by decide)
  have hinput : (NpyArray.load ⟨"in.npy"⟩ : ExceptT Error (StateM FileTree) NpyArray).run
      sampleTree = (.ok (NpyArray.ofValues [2, 4] sampleValues), sampleTree) :=
    NpyArray.load_run_eq_ok_iff.mpr ⟨⟨_, FileTree.read_eq_ok_iff.mpr
      ⟨["in.npy"], ⟨rfl, by decide⟩, rfl⟩,
      NpyArray.read_write (by decide) hstored rfl rfl (by decide)⟩, rfl⟩
  have hconfig : Configured sampleTree ⟨"config.json"⟩ sampleConfig :=
    ⟨_, _, FileTree.read_eq_ok_iff.mpr ⟨["config.json"], ⟨rfl, by decide⟩, rfl⟩,
      Bytes.toText?_ofText _, by decide +kernel⟩
  have hwords : sampleTree.Writable ⟨(none : Option String).getD "words.txt"⟩ :=
    ⟨["words.txt"], ⟨rfl, by decide⟩, by decide⟩
  have houtput : NpyArray.Savable sampleTree ⟨(none : Option String).getD "output.npy"⟩ :=
    ⟨["output.npy"], ⟨rfl, by decide⟩, by decide, by decide +kernel⟩
  have hlast : sampleConfig.shape.getLast? = some 4 := rfl
  obtain ⟨printed, t₁, text, hpack, hread, hlines, printed', t₂, recovered, values, values',
    hunpack, hload, hshape, _, hvalues, _, hvalues', hget⟩ :=
    unpack_after_pack hinput hconfig rfl hlast rfl (by decide) (by decide) (by decide) hwords
      (by decide +kernel) houtput (Npy.Header.storable_of_length _ (by decide) (by decide))
      (by decide) (by decide)
  have hsigned : (NpyArray.ofValues [2, 4] sampleValues).values (.int .one) =
      .ok [-56, 1, 2, 3, 4, 5, 16, 31] := by decide +kernel
  cases hvalues.symm.trans hsigned
  have heq : values' = [-56, 1, 2, 3, 4, 5, 16, 31].map fun x =>
      sampleConfig.element.decode (.int .one) (sampleConfig.element.encode x) :=
    List.ext_getElem? fun p => (hget p).trans (List.getElem?_map ..).symm
  have hdecoded : values' = [8, 1, 2, 3, 4, 5, -16, -1] := heq.trans rfl
  exact ⟨printed, t₁, text, printed', t₂, recovered, hpack, hread, hlines, hunpack, hload, hshape,
    hdecoded ▸ hvalues'⟩

def longRowsTree : FileTree :=
  ⟨[(["in.npy"], .file (Npy.Header.write (.int .eight) [0, 1152921504606846976])),
    (["config.json"], .file (Bytes.ofText ("\x7b\"npy_dtype\": \"int64\", \"elem_type\": \"INT64\", " ++
      "\"shape\": [0, 1152921504606846976]\x7d")))], []⟩

def longRowsArray : NpyArray :=
  ⟨⟨Npy.Descr.ofDtype (.int .eight), false, [0, 1152921504606846976]⟩, []⟩

theorem load_longRows :
    (NpyArray.load ⟨"in.npy"⟩ : ExceptT Error (StateM FileTree) NpyArray).run longRowsTree =
      (.ok longRowsArray, longRowsTree) :=
  NpyArray.load_run_eq_ok_iff.mpr ⟨⟨_, FileTree.read_eq_ok_iff.mpr
    ⟨["in.npy"], ⟨rfl, by decide⟩, rfl⟩, by decide +kernel⟩, rfl⟩

def hiddenDirectoryTree : FileTree :=
  ⟨[(["in.npy"], .file (Npy.Header.write (.uint .one) [1] ++ [7])),
    (["config.json"], .file (Bytes.ofText
      "\x7b\"npy_dtype\": \"uint8\", \"elem_type\": \"UINT8\", \"shape\": [1]\x7d")),
    ([".output.npy.tmp"], .directory)], []⟩

/-- An array of no rows stops a checked build where the bits of one row do not fit, and a directory in
the place of the hidden file refuses the tensor that is unpacked. -/
theorem pack_stopped :
    (NpyArray.load ⟨"in.npy"⟩ : ExceptT Error (StateM FileTree) NpyArray).run longRowsTree =
      (.ok longRowsArray, longRowsTree) ∧
    Configured longRowsTree ⟨"config.json"⟩ ⟨.int .eight, .int ⟨64, by decide, by decide⟩,
      [0, 1152921504606846976], ⟨true, 1, 1⟩⟩ ∧
    longRowsTree.Writable ⟨"words.txt"⟩ ∧ NpyArray.Savable longRowsTree ⟨"output.npy"⟩ ∧
    let packed := outcome (pack "in.npy" (some "config.json") none :
      Console (StateM FileTree) Unit) "" hiddenDirectoryTree
    packed.1 = .ok () ∧
      (outcome (unpack "words.txt" (some "config.json") none : Console (StateM FileTree) Unit) ""
        packed.2.2).1 = .error [.context (.unpacking "words.txt"), .error (.io .isADirectory)] ∧
    letI := Platform.throughSingle true
    outcome (pack "in.npy" (some "config.json") none : Console (StateM FileTree) Unit) ""
      longRowsTree = (.error [.error (.size .overflow)], "", longRowsTree) := by
  have hconfig : Configured longRowsTree ⟨"config.json"⟩ ⟨.int .eight,
      .int ⟨64, by decide, by decide⟩, [0, 1152921504606846976], ⟨true, 1, 1⟩⟩ :=
    ⟨_, _, FileTree.read_eq_ok_iff.mpr ⟨["config.json"], ⟨rfl, by decide⟩, rfl⟩,
      Bytes.toText?_ofText _, by decide +kernel⟩
  have hwords : longRowsTree.Writable ⟨"words.txt"⟩ := ⟨["words.txt"], ⟨rfl, by decide⟩, by decide⟩
  have houtput : NpyArray.Savable longRowsTree ⟨"output.npy"⟩ :=
    ⟨["output.npy"], ⟨rfl, by decide⟩, by decide, by decide +kernel⟩
  exact ⟨load_longRows, hconfig, hwords, houtput, by decide +kernel⟩

end Bitpack.Console
