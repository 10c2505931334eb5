import Bitpack.Proofs.Command.RoundTrip
import Bitpack.Proofs.Packing.AllOrNothing

/-!
A pack command that fails leaves no trace. Whatever can fail comes before the words are written, and
they are written in one step, so that a failure leaves the tree of files as it was and a success
changes nothing in it but the file of the words.
-/
namespace Bitpack.Console

variable {α β : Type} {t : FileTree}

/-- A result and the tree that it leaves: a failure leaves the tree that was there, and a success is
as described. -/
def OrKept {ε : Type} (t : FileTree) (post : α → FileTree → Prop) : Except ε α → FileTree → Prop
  | .error _, t' => t' = t
  | .ok a, t' => post a t'

/-- Whatever was printed before, a command fails and leaves the tree, or it succeeds with a result and
a tree as described. -/
def AllOrNothing (x : Console (StateM FileTree) α) (t : FileTree) (post : α → FileTree → Prop) :
    Prop :=
  ∀ printed, ∃ result printed' t', outcome x printed t = (result, printed', t') ∧
    OrKept t post result t'

theorem orKept_of_kept {ε : Type} (result : Except ε α) :
    OrKept t (fun a t' => t' = t ∧ result = .ok a) result t := by
  cases result with
  | error e => exact rfl
  | ok a => exact ⟨rfl, rfl⟩

theorem AllOrNothing.mono {x : Console (StateM FileTree) α} {post post' : α → FileTree → Prop}
    (hx : AllOrNothing x t post) (hpost : ∀ a t', post a t' → post' a t') :
    AllOrNothing x t post' := by
  intro printed
  obtain ⟨result, printed', t', hrun, hend⟩ := hx printed
  refine ⟨result, printed', t', hrun, ?_⟩
  cases result with
  | error causes => exact hend
  | ok a => exact hpost a t' hend

theorem AllOrNothing.bind {x : Console (StateM FileTree) α} {f : α → Console (StateM FileTree) β}
    {found : α → Prop} {post : β → FileTree → Prop}
    (hx : AllOrNothing x t fun a t' => t' = t ∧ found a)
    (hf : ∀ a, found a → AllOrNothing (f a) t post) : AllOrNothing (x >>= f) t post := by
  intro printed
  obtain ⟨result, printed', t', hrun, hend⟩ := hx printed
  cases result with
  | error causes =>
      exact ⟨_, _, _, outcome_bind_of_error hrun, hend⟩
  | ok a =>
      obtain ⟨rfl, hfound⟩ := hend
      obtain ⟨result, printed'', t'', hnext, hpost⟩ := hf a hfound printed'
      exact ⟨_, _, _, (outcome_bind_of_ok hrun).trans hnext, hpost⟩

theorem AllOrNothing.bind_of_ok {x : Console (StateM FileTree) α}
    {f : α → Console (StateM FileTree) β} {post : FileTree → Prop}
    (hx : AllOrNothing x t fun _ t' => post t')
    (hf : ∀ a printed t', ∃ b printed', outcome (f a) printed t' = (.ok b, printed', t')) :
    AllOrNothing (x >>= f) t fun _ t' => post t' := by
  intro printed
  obtain ⟨result, printed', t', hrun, hend⟩ := hx printed
  cases result with
  | error causes =>
      exact ⟨_, _, _, outcome_bind_of_error hrun, hend⟩
  | ok a =>
      obtain ⟨b, printed'', hnext⟩ := hf a printed' t'
      exact ⟨_, _, _, (outcome_bind_of_ok hrun).trans hnext, hend⟩

theorem allOrNothing_pure (a : α) {post : α → FileTree → Prop} (hpost : post a t) :
    AllOrNothing (pure a : Console (StateM FileTree) α) t post :=
  fun printed => ⟨.ok a, printed, t, rfl, hpost⟩

theorem allOrNothing_throw (causes : List Cause) (post : α → FileTree → Prop) :
    AllOrNothing (throw causes : Console (StateM FileTree) α) t post :=
  fun printed => ⟨.error causes, printed, t, rfl, rfl⟩

theorem allOrNothing_ofExcept (context : List Context) (result : Except Error α) :
    AllOrNothing (ofExcept context result) t fun a t' => t' = t ∧ result = .ok a := by
  cases result with
  | error e => exact allOrNothing_throw _ _
  | ok a => exact allOrNothing_pure a ⟨rfl, rfl⟩

theorem allOrNothing_files {access : ExceptT Error (StateM FileTree) α} {result : Except Error α}
    {t' : FileTree} {post : α → FileTree → Prop} (context : List Context)
    (haccess : access.run t = (result, t')) (hpost : OrKept t post result t') :
    AllOrNothing (files context access) t post := by
  intro printed
  rw [outcome_files_eq, haccess]
  cases result with
  | error e => exact ⟨_, _, _, rfl, hpost⟩
  | ok a => exact ⟨_, _, _, rfl, hpost⟩

def textAt (t : FileTree) (path : Path) : Except Error String :=
  match t.read path with
  | .error fault => .error (.io fault)
  | .ok bytes =>
    match Bytes.toText? bytes with
    | none => .error (.io .invalidData)
    | some text => .ok text

theorem textAt_eq_ok_iff {path : Path} {text : String} :
    textAt t path = .ok text ↔
      ∃ bytes, t.read path = .ok bytes ∧ Bytes.toText? bytes = some text := by
  unfold textAt
  cases t.read path with
  | error fault => simp
  | ok bytes => cases htext : Bytes.toText? bytes <;> simp [htext]

theorem allOrNothing_readText (context : Context) (path : String) :
    AllOrNothing (readText context path) t fun text t' => t' = t ∧ textAt t ⟨path⟩ = .ok text := by
  have hgiven : (Files.read ⟨path⟩ : StateM FileTree (Except IoError Bytes)) t =
      (t.read ⟨path⟩, t) := rfl
  refine allOrNothing_files [context] ?_ (orKept_of_kept (textAt t ⟨path⟩))
  rw [ExceptT.run_mk, stateM_bind, hgiven]
  unfold textAt
  cases t.read ⟨path⟩ with
  | error fault => rfl
  | ok bytes => cases htext : Bytes.toText? bytes <;> simp [htext] <;> rfl

theorem allOrNothing_loadConfig (configPath : Option String) :
    AllOrNothing (loadConfig configPath) t fun config t' => t' = t ∧
      ∃ path, configPath = some path ∧ Configured t ⟨path⟩ config := by
  unfold loadConfig
  cases configPath with
  | none => exact allOrNothing_throw _ _
  | some path =>
      refine (allOrNothing_readText _ path).bind fun text htext => ?_
      obtain ⟨bytes, hread, htext⟩ := textAt_eq_ok_iff.mp htext
      cases hparse : Config.parse? text with
      | none => exact allOrNothing_throw _ _
      | some config =>
          exact allOrNothing_pure config ⟨rfl, path, rfl, bytes, text, hread, htext, hparse⟩

theorem allOrNothing_load (path : String) :
    AllOrNothing (load path) t fun array t' => t' = t ∧
      (NpyArray.load ⟨path⟩ : ExceptT Error (StateM FileTree) NpyArray).run t = (.ok array, t) := by
  have hrun : (NpyArray.load ⟨path⟩ : ExceptT Error (StateM FileTree) NpyArray).run t =
      (NpyArray.orIo (t.read ⟨path⟩) >>= NpyArray.read, t) := rfl
  refine (allOrNothing_files [.loading path] hrun (orKept_of_kept _)).mono ?_
  rintro array _ ⟨rfl, hread⟩
  exact ⟨rfl, by rw [hrun, hread]⟩

theorem allOrNothing_runJob {job : Packing.Job Word (StateM FileTree) Unit} {items items' : List Word}
    {result : Except Error Unit} (context : Context) (hjob : job.Ends items t result items' t) :
    AllOrNothing (runJob context items job) t fun words t' => t' = t ∧
      result = .ok () ∧ words = items' := by
  intro printed
  rw [outcome_runJob_eq hjob]
  cases result with
  | error e => exact ⟨_, _, _, rfl, rfl⟩
  | ok a => exact ⟨_, _, _, rfl, rfl, rfl, rfl⟩

theorem allOrNothing_writeText (context : List Context) (path text : String) :
    AllOrNothing (writeText context path text) t fun _ t' =>
      t.write ⟨path⟩ (Bytes.ofText text) = .ok t' := by
  unfold writeText
  refine allOrNothing_files context rfl ?_
  dsimp only
  cases t.write ⟨path⟩ (Bytes.ofText text) with
  | error fault => exact rfl
  | ok t' => exact rfl

structure Finds (t : FileTree) (input : String) (configPath : Option String) (config : Config)
    (array : NpyArray) : Prop where
  configured : ∃ path, configPath = some path ∧ Configured t ⟨path⟩ config
  load_eq : (NpyArray.load ⟨input⟩ : ExceptT Error (StateM FileTree) NpyArray).run t = (.ok array, t)
  shape_eq : array.shape = config.shape

theorem Finds.eq_of_read {input : String} {configPath : Option String} {config : Config}
    {array found : NpyArray} {bytes : Bytes} (h : Finds t input configPath config array)
    (hbytes : t.read ⟨input⟩ = .ok bytes) (hread : NpyArray.read bytes = .ok found) :
    array = found := by
  obtain ⟨⟨_, hbytes', hread'⟩, -⟩ := NpyArray.load_run_eq_ok_iff.mp h.load_eq
  cases hbytes.symm.trans hbytes'
  exact Except.ok.inj (hread'.symm.trans hread)

section

variable [Platform]

/-- What packing has where it comes to write, with the words that every replay pushes if there is
one. -/
structure Packs (t : FileTree) (input : String) (configPath : Option String) (config : Config)
    (array : NpyArray) (words : List Word) : Prop extends Finds t input configPath config array where
  width_ok : ∃ width, Packing.wordBits config.shape config.element = .ok width
  words_eq : 0 < config.options.repetitions →
    Packing.wordsAt config.dtype ⟨input⟩ config.element config.options t = .ok words

/-- An array and a configuration for it: its last axis falls into blocks, unless it is not packed at
all. -/
structure Agrees (t : FileTree) (input : String) (configPath : Option String) (config : Config)
    (array : NpyArray) (last : Nat) : Prop extends Finds t input configPath config array where
  last_eq : config.shape.getLast? = some last
  fits : 0 < config.options.repetitions →
    array.wordSize = config.dtype.bytes ∧ 0 < config.options.blocks ∧ config.options.blocks ∣ last

def packedText (config : Config) (words : List Word) : String :=
  WordFile.write (List.replicate config.options.repetitions words).flatten

theorem allOrNothing_pack (t : FileTree) (input : String) (configPath output : Option String) :
    AllOrNothing (pack input configPath output) t fun _ t' =>
      ∃ config array words, Packs t input configPath config array words ∧
        t.write ⟨output.getD "words.txt"⟩ (Bytes.ofText (packedText config words)) = .ok t' := by
  unfold pack
  refine (allOrNothing_loadConfig configPath).bind fun config hconfig => ?_
  dsimp only
  refine (allOrNothing_load input).bind fun array hload => ?_
  split
  · exact allOrNothing_throw _ _
  · rename_i hshape
    refine (allOrNothing_ofExcept [] _).bind fun width hwidth => ?_
    rcases Packing.ends_npyToWords_or config.dtype ⟨input⟩ config.element config.options t [] with
      ⟨fault, hends⟩ | ⟨words, hwords⟩
    · refine (allOrNothing_runJob _ hends).bind ?_
      rintro _ ⟨hok, -⟩
      cases hok
    · refine (allOrNothing_runJob _ (Packing.completes_npyToWords_of_pos hwords [])).bind ?_
      rintro _ ⟨-, rfl⟩
      -- Only the printing comes after the words are written.
      refine ((allOrNothing_writeText _ _ _).mono ?_).bind_of_ok fun _ _ _ => ⟨_, _, rfl⟩
      intro _ t' hwritten
      exact ⟨config, array, words,
        ⟨⟨hconfig, hload, of_not_not hshape⟩, ⟨width, hwidth⟩, hwords⟩, hwritten⟩

theorem Packs.outcome_eq {t' : FileTree} {input : String} {configPath output : Option String}
    {config : Config} {array : NpyArray} {words : List Word} {printed : String}
    (h : Packs t input configPath config array words)
    (hwrite : t.write ⟨output.getD "words.txt"⟩ (Bytes.ofText (packedText config words)) = .ok t') :
    ∃ printed', outcome (pack input configPath output : Console (StateM FileTree) Unit) printed t =
      (.ok (), printed', t') := by
  obtain ⟨path, rfl, hconfig⟩ := h.configured
  obtain ⟨width, hwidth⟩ := h.width_ok
  exact outcome_pack_of_completes h.load_eq hconfig h.shape_eq hwidth
    (Packing.completes_npyToWords_of_pos h.words_eq []) hwrite

theorem Packs.exists_tensor {input : String} {configPath : Option String} {config : Config}
    {array : NpyArray} {words : List Word} (h : Packs t input configPath config array words)
    (hrepetitions : 0 < config.options.repetitions) :
    ∃ tensor : Tensor config.dtype, tensor.shape = config.shape ∧
      array.values config.dtype = .ok tensor.values ∧
      ∀ queue, (Packing.pack tensor config.element config.options).settle queue =
        (.ok (), queue ++ words) := by
  obtain ⟨tensor, htensor, hpack⟩ := Packing.wordsAt_eq_ok_iff.mp (h.words_eq hrepetitions)
  obtain ⟨bytes, found, hbytes, hread, hvalues, hshape⟩ := Packing.tensorAt_eq_ok_iff.mp htensor
  obtain rfl := h.eq_of_read hbytes hread
  exact ⟨tensor, hshape.trans h.shape_eq, hvalues, hpack⟩

theorem Packs.exists_agrees {input : String} {configPath : Option String} {config : Config}
    {array : NpyArray} {words : List Word} (h : Packs t input configPath config array words) :
    ∃ last, Agrees t input configPath config array last := by
  obtain ⟨width, hwidth⟩ := h.width_ok
  obtain ⟨l, hlayout, -⟩ := bind_eq_ok_iff.mp hwidth
  obtain ⟨last, -, hlast, -⟩ := Layout.ofShape_eq_ok_iff.mp hlayout
  refine ⟨last, h.toFinds, hlast, fun hpos => ?_⟩
  obtain ⟨bytes, found, last', hbytes, hread, hsize, hlast', hblocks⟩ :=
    Packing.readable_of_wordsAt (h.words_eq hpos)
  obtain rfl := h.eq_of_read hbytes hread
  rw [h.shape_eq] at hlast'
  cases hlast.symm.trans hlast'
  exact ⟨hsize, hblocks⟩

theorem Agrees.exists_packs {input : String} {configPath : Option String} {config : Config}
    {array : NpyArray} {last : Nat} (h : Agrees t input configPath config array last)
    (hroom : array.data.length < Size.memoryLimit) (hbits : last * config.element.bits < Size.limit) :
    ∃ words, Packs t input configPath config array words := by
  obtain ⟨⟨bytes, hbytes, hread⟩, -⟩ := NpyArray.load_run_eq_ok_iff.mp h.load_eq
  have hfits : Size.Fits config.shape :=
    h.shape_eq ▸ Npy.Header.fits_of_elementCount (NpyArray.loaded_of_read hread).elementCount_ok
  have hwidth := Packing.wordBits_eq h.last_eq hfits.dropLast config.element hbits
  by_cases hpos : 0 < config.options.repetitions
  · obtain ⟨hsize, hblocks, hdvd⟩ := h.fits hpos
    obtain ⟨words, hwords⟩ := Packing.exists_wordsAt hbytes hread hsize (h.shape_eq ▸ h.last_eq)
      hblocks hdvd hroom hbits
    exact ⟨words, h.toFinds, ⟨_, hwidth⟩, fun _ => hwords⟩
  · exact ⟨[], h.toFinds, ⟨_, hwidth⟩, fun hpos' => absurd hpos' hpos⟩

/-- A pack command that fails leaves every file and directory as it was. One that succeeds changes the
file of the words alone, which then has one line for each word of the tensor, once for every replay.
It succeeds only where the array and the configuration agree and the words can be written, and there it
does if the data are in memory and the words have a width that fits. -/
theorem pack_leaves_no_trace (t : FileTree) (input : String) (configPath output : Option String)
    (printed : String) :
    ∃ result printed' t',
      outcome (pack input configPath output : Console (StateM FileTree) Unit) printed t =
        (result, printed', t') ∧
      ((∃ causes, result = .error causes ∧ t' = t) ∨
        result = .ok () ∧ ∃ path config array words place, configPath = some path ∧
          Configured t ⟨path⟩ config ∧
          (NpyArray.load ⟨input⟩ : ExceptT Error (StateM FileTree) NpyArray).run t =
            (.ok array, t) ∧
          (0 < config.options.repetitions → ∃ tensor : Tensor config.dtype,
            tensor.shape = config.shape ∧ array.values config.dtype = .ok tensor.values ∧
            ∀ queue, (Packing.pack tensor config.element config.options).settle queue =
              (.ok (), queue ++ words)) ∧
          t.Leads ⟨output.getD "words.txt"⟩ place ∧ t'.home = t.home ∧
          ∀ other, t'.get? other =
            if other = place then
              some (.file (Bytes.ofText (String.ofList
                ((List.replicate config.options.repetitions words).flatten.flatMap
                  fun word => word.hexChars ++ ['\n']))))
            else t.get? other) ∧
      (result = .ok () → (∃ config array last, Agrees t input configPath config array last) ∧
        t.Writable ⟨output.getD "words.txt"⟩) ∧
      ∀ config array last, Agrees t input configPath config array last →
        array.data.length < Size.memoryLimit → last * config.element.bits < Size.limit →
        t.Writable ⟨output.getD "words.txt"⟩ → result = .ok () := by
  obtain ⟨result, printed', t', hrun, hend⟩ := allOrNothing_pack t input configPath output printed
  refine ⟨result, printed', t', hrun, ?_, ?_, ?_⟩
  · cases result with
    | error causes => exact .inl ⟨causes, rfl, hend⟩
    | ok a =>
        obtain ⟨config, array, words, h, hwrite⟩ := hend
        obtain ⟨path, hpath, hconfig⟩ := h.configured
        obtain ⟨place, hleads, -, rfl⟩ := FileTree.write_eq_ok_iff.mp hwrite
        exact .inr ⟨rfl, path, config, array, words, place, hpath, hconfig, h.load_eq,
          h.exists_tensor, hleads, rfl, FileTree.get?_put hleads.ne_nil _⟩
  · rintro rfl
    obtain ⟨config, array, words, h, hwrite⟩ := hend
    obtain ⟨place, hleads, hfile, -⟩ := FileTree.write_eq_ok_iff.mp hwrite
    exact ⟨⟨config, array, h.exists_agrees⟩, place, hleads, hfile⟩
  · intro config array last hagrees hroom hbits hwritable
    obtain ⟨words, h⟩ := hagrees.exists_packs hroom hbits
    obtain ⟨place, -, hwrite, -⟩ := hwritable.write_eq (Bytes.ofText (packedText config words))
    obtain ⟨printed'', hrun'⟩ := h.outcome_eq hwrite
    exact congrArg Prod.fst (hrun.symm.trans hrun')

end

end Bitpack.Console
