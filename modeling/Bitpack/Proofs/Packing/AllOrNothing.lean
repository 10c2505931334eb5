import Bitpack.Proofs.Packing.Replay

/-!
Packing a file as often as the options say. Whatever can fail does so before the first word is pushed,
so that the queue is either left alone or has every copy of the words behind it.
-/
namespace Bitpack.Packing

open Streaming (Transfer)
open Job (Completes Ends)

section

variable [Platform] {d : Dtype} {ω : Type}

/-- The tensor in the file of a path, read as a type of the width of the file's own. -/
def tensorAt (d : Dtype) (path : Path) (t : FileTree) : Except Error (Tensor d) := do
  let array ← NpyArray.orIo (t.read path) >>= NpyArray.read
  let values ← array.values d
  Tensor.ofValues array.shape values

theorem ends_loadTensor (d : Dtype) (path : Path) (items : List ω) (t : FileTree) :
    Ends (loadTensor d path) items t (tensorAt d path t) items t := by
  have hload : (NpyArray.load path : ExceptT Error (StateM FileTree) NpyArray).run t =
      (NpyArray.orIo (t.read path) >>= NpyArray.read, t) := rfl
  unfold loadTensor tensorAt
  cases harray : NpyArray.orIo (t.read path) >>= NpyArray.read with
  | error fault =>
      rw [harray] at hload
      exact (Job.ends_files hload items).bind_of_error
  | ok array =>
      rw [harray] at hload
      have hmade : Ends (do
          let values ← ExceptT.mk (pure (array.values d))
          ExceptT.mk (pure (Tensor.ofValues array.shape values)) :
            Job ω (StateM FileTree) (Tensor d))
          items t (array.values d >>= Tensor.ofValues array.shape) items t := by
        cases hvalues : array.values d with
        | error fault => exact (Job.ends_of_result _ items t).bind_of_error
        | ok values =>
            exact (Job.completes_of_result rfl items t).bind_ends (Job.ends_of_result _ items t)
      refine (Job.completes_files hload items).bind_ends
        ((Job.completes_report _ items t).bind_ends ?_)
      split
      · exact (Job.completes_report _ items t).bind_ends hmade
      · exact hmade

theorem tensorAt_eq_ok_iff {path : Path} {t : FileTree} {tensor : Tensor d} :
    tensorAt d path t = .ok tensor ↔
      ∃ bytes array, t.read path = .ok bytes ∧ NpyArray.read bytes = .ok array ∧
        array.values d = .ok tensor.values ∧ tensor.shape = array.shape := by
  unfold tensorAt
  simp only [bind_eq_ok_iff, NpyArray.orIo_eq_ok_iff, ofValues_eq_ok_iff]
  constructor
  · rintro ⟨array, ⟨bytes, hbytes, hread⟩, values, hvalues, hshape, rfl⟩
    exact ⟨bytes, array, hbytes, hread, hvalues, hshape⟩
  · rintro ⟨bytes, array, hbytes, hread, hvalues, hshape⟩
    exact ⟨array, ⟨bytes, hbytes, hread⟩, _, hvalues, hshape, rfl⟩

theorem exists_tensorAt {path : Path} {t : FileTree} {bytes : Bytes} {array : NpyArray}
    (hbytes : t.read path = .ok bytes) (hread : NpyArray.read bytes = .ok array)
    (hwidth : array.wordSize = d.bytes) (hne : array.shape ≠ [])
    (hroom : array.data.length < Size.memoryLimit) :
    ∃ tensor : Tensor d, tensorAt d path t = .ok tensor ∧ tensor.shape = array.shape := by
  have hloaded := NpyArray.loaded_of_read hread
  -- What was read has as many values as its shape holds, so that only the rank can be refused.
  obtain ⟨values, hvalues, hlength⟩ := hloaded.values_ok hwidth
  have hbytes_lt : values.length * d.bytes < Size.memoryLimit := by
    rw [hlength, ← hwidth]
    exact hloaded.length_data ▸ hroom
  exact ⟨⟨array.shape, values, hne, hlength, Npy.Header.fits_of_elementCount hloaded.elementCount_ok,
    hbytes_lt⟩, tensorAt_eq_ok_iff.mpr ⟨bytes, array, hbytes, hread, hvalues, rfl⟩, rfl⟩

theorem settle_pack_of_error {tensor : Tensor d} (e : ElementType) {options : Options} {fault : Error}
    (hlayout : Layout.ofShape tensor.shape options.blocks = .error fault) (queue : List Word) :
    (pack tensor e options).settle queue = (.error fault, queue) := by
  unfold pack
  rw [hlayout, Transfer.settle_bind, Transfer.settle_lift]

/-- Nothing is pushed unless all words are. A word that has too few bits for its row is the first one,
since all rows are of the same length. -/
theorem settle_pack_or (tensor : Tensor d) (e : ElementType) (options : Options) :
    (∃ fault, ∀ queue, (pack tensor e options).settle queue = (.error fault, queue)) ∨
      ∃ words, ∀ queue, (pack tensor e options).settle queue = (.ok (), queue ++ words) := by
  cases hlayout : Layout.ofShape tensor.shape options.blocks with
  | error fault => exact .inl ⟨fault, settle_pack_of_error e hlayout⟩
  | ok l =>
      have hcount := length_values_of_ofShape hlayout
      unfold pack
      rw [hlayout]
      simp only [Transfer.settle_bind_of_ok (Transfer.settle_lift _ _)]
      cases hwidth : l.wordBits e.bits with
      | error fault =>
          exact .inl ⟨fault, fun queue => Transfer.settle_bind_of_error (Transfer.settle_lift _ queue)⟩
      | ok width =>
          simp only [Transfer.settle_bind_of_ok (Transfer.settle_lift _ _),
            Transfer.settle_bind_of_ok (Transfer.settle_report _ _)]
          rcases Nat.lt_or_eq_of_le (Layout.le_of_wordBits hwidth) with hlt | rfl
          · cases hrows : Tensor.rows l.innerFull l.outer tensor.values with
            | nil => exact .inr ⟨[], fun queue => by rw [List.append_nil]; rfl⟩
            | cons row rest =>
                have hrow := length_of_mem_rows hcount (hrows ▸ List.mem_cons_self : row ∈ _)
                obtain ⟨fault, hfault⟩ := fillWord_of_lt e options hrow hlt
                exact .inl ⟨.range fault, fun queue =>
                  Transfer.settle_bind_of_error (settle_packRow_of_error hfault queue)⟩
          · exact .inr ⟨_, settle_packRows e l options 0
              fun _ hrow => length_of_mem_rows hcount hrow⟩

def packed (tensor : Tensor d) (e : ElementType) (options : Options) : Except Error (List Word) :=
  match (pack tensor e options).settle [] with
  | (.ok (), words) => .ok words
  | (.error fault, _) => .error fault

theorem packed_eq_ok_iff {tensor : Tensor d} {e : ElementType} {options : Options}
    {words : List Word} :
    packed tensor e options = .ok words ↔
      ∀ queue, (pack tensor e options).settle queue = (.ok (), queue ++ words) := by
  unfold packed
  rcases settle_pack_or tensor e options with ⟨fault, hfault⟩ | ⟨pushed, hpushed⟩
  · simp [hfault]
  · simp [hpushed]

theorem settle_pack_of_packed_error {tensor : Tensor d} {e : ElementType} {options : Options}
    {fault : Error} (h : packed tensor e options = .error fault) (queue : List Word) :
    (pack tensor e options).settle queue = (.error fault, queue) := by
  unfold packed at h
  rcases settle_pack_or tensor e options with ⟨other, hother⟩ | ⟨pushed, hpushed⟩
  · rw [hother] at h
    cases h
    exact hother queue
  · rw [hpushed] at h
    cases h

/-- The words that one replay pushes, if it pushes any. -/
def wordsAt (d : Dtype) (path : Path) (e : ElementType) (options : Options) (t : FileTree) :
    Except Error (List Word) := do
  packed (← tensorAt d path t) e options

theorem wordsAt_eq_ok_iff {path : Path} {e : ElementType} {options : Options} {t : FileTree}
    {words : List Word} :
    wordsAt d path e options t = .ok words ↔
      ∃ tensor, tensorAt d path t = .ok tensor ∧
        ∀ queue, (pack tensor e options).settle queue = (.ok (), queue ++ words) := by
  simp only [wordsAt, bind_eq_ok_iff, packed_eq_ok_iff]

theorem readable_of_wordsAt {path : Path} {e : ElementType} {options : Options} {t : FileTree}
    {words : List Word} (hwords : wordsAt d path e options t = .ok words) :
    ∃ bytes array last, t.read path = .ok bytes ∧ NpyArray.read bytes = .ok array ∧
      array.wordSize = d.bytes ∧ array.shape.getLast? = some last ∧ 0 < options.blocks ∧
      options.blocks ∣ last := by
  obtain ⟨tensor, htensor, hpack⟩ := wordsAt_eq_ok_iff.mp hwords
  obtain ⟨bytes, array, hbytes, hread, hvalues, hshape⟩ := tensorAt_eq_ok_iff.mp htensor
  cases hlayout : Layout.ofShape tensor.shape options.blocks with
  | error fault =>
      cases (settle_pack_of_error e hlayout []).symm.trans (hpack [])
  | ok l =>
      obtain ⟨last, -, hlast, hpos, hdvd, -⟩ := Layout.ofShape_eq_ok_iff.mp hlayout
      exact ⟨bytes, array, last, hbytes, hread, (NpyArray.loaded_of_read hread).eq_of_values hvalues
        |>.1, hshape ▸ hlast, hpos, hdvd⟩

theorem exists_wordsAt {path : Path} {e : ElementType} {options : Options} {t : FileTree}
    {bytes : Bytes} {array : NpyArray} {last : Nat} (hbytes : t.read path = .ok bytes)
    (hread : NpyArray.read bytes = .ok array) (hwidth : array.wordSize = d.bytes)
    (hlast : array.shape.getLast? = some last) (hpos : 0 < options.blocks)
    (hdvd : options.blocks ∣ last) (hroom : array.data.length < Size.memoryLimit)
    (hbits : last * e.bits < Size.limit) : ∃ words, wordsAt d path e options t = .ok words := by
  have hne : array.shape ≠ [] := by
    intro hnil
    rw [hnil] at hlast
    cases hlast
  obtain ⟨tensor, htensor, hshape⟩ := exists_tensorAt (d := d) hbytes hread hwidth hne hroom
  obtain ⟨l, hlayout, -, -, -, hfull, hcount⟩ := layout_of_dvd (hshape ▸ hlast) hpos hdvd
  exact ⟨_, wordsAt_eq_ok_iff.mpr ⟨tensor, htensor,
    settle_pack e hlayout hcount (by rwa [Layout.slotBits, hfull])⟩⟩

theorem ends_replay_of_error {path : Path} {e : ElementType} {options : Options} {t : FileTree}
    {fault : Error} (hwords : wordsAt d path e options t = .error fault) (items : List Word) :
    Ends (loadTensor d path >>= fun tensor => Job.stream (pack tensor e options)) items t
      (.error fault) items t := by
  have hload := ends_loadTensor d path items t
  unfold wordsAt at hwords
  cases htensor : tensorAt d path t with
  | error other =>
      rw [htensor] at hwords hload
      cases hwords
      exact hload.bind_of_error
  | ok tensor =>
      rw [htensor] at hwords hload
      exact (Job.ends_ok_iff.mp hload).bind_ends
        (Job.ends_stream (settle_pack_of_packed_error hwords items) t)

theorem completes_npyToWords_of_wordsAt {path : Path} {e : ElementType} {options : Options}
    {t : FileTree} {words : List Word} (hwords : wordsAt d path e options t = .ok words)
    (items : List Word) :
    Completes (npyToWords d path e options) items t ()
      (items ++ (List.replicate options.repetitions words).flatten) t := by
  obtain ⟨tensor, htensor, hpack⟩ := wordsAt_eq_ok_iff.mp hwords
  refine completes_npyToWords (fun queue => ?_) hpack items
  have hload := ends_loadTensor d path queue t
  rw [htensor] at hload
  exact hload

theorem ends_npyToWords_of_error {path : Path} {e : ElementType} {options : Options} {t : FileTree}
    {fault : Error} (hwords : wordsAt d path e options t = .error fault)
    (hrepetitions : 0 < options.repetitions) (items : List Word) :
    Ends (npyToWords d path e options) items t (.error fault) items t := by
  have hfail := ends_replay_of_error hwords items
  exact ends_replayed_of_first .npyToWords options.repetitions hfail hrepetitions 0

theorem completes_npyToWords_of_pos {path : Path} {e : ElementType} {options : Options} {t : FileTree}
    {words : List Word} (hwords : 0 < options.repetitions → wordsAt d path e options t = .ok words)
    (items : List Word) :
    Completes (npyToWords d path e options) items t ()
      (items ++ (List.replicate options.repetitions words).flatten) t := by
  by_cases hrepetitions : 0 < options.repetitions
  · exact completes_npyToWords_of_wordsAt (hwords hrepetitions) items
  · unfold npyToWords replays
    rw [Nat.eq_zero_of_not_pos hrepetitions, List.replicate_zero, List.flatten_nil, List.append_nil]
    exact Job.completes_pure () items t

theorem ends_npyToWords_or (d : Dtype) (path : Path) (e : ElementType) (options : Options)
    (t : FileTree) (items : List Word) :
    (∃ fault, Ends (npyToWords d path e options) items t (.error fault) items t) ∨
      ∃ words, 0 < options.repetitions → wordsAt d path e options t = .ok words := by
  by_cases hrepetitions : 0 < options.repetitions
  · cases hwords : wordsAt d path e options t with
    | error fault => exact .inl ⟨fault, ends_npyToWords_of_error hwords hrepetitions items⟩
    | ok words => exact .inr ⟨words, fun _ => rfl⟩
  · exact .inr ⟨[], fun hpos => absurd hpos hrepetitions⟩

/-- Packing a file never leaves a part of its words: an error leaves the queue as it was, and success
leaves one copy of the words of the tensor behind it for every replay. If there is a replay at all, it
succeeds only for readable files of the width asked for that have a last axis which falls into the
blocks, and for all of them whose data are in memory and whose words have a width that fits. -/
theorem npyToWords_all_or_nothing (d : Dtype) (path : Path) (e : ElementType) (options : Options)
    (t : FileTree) (queue : List Word) :
    ∃ result queue', Ends (npyToWords d path e options) queue t result queue' t ∧
      ((∃ fault, result = .error fault ∧ queue' = queue) ∨
        result = .ok () ∧ ∃ words,
          queue' = queue ++ (List.replicate options.repetitions words).flatten ∧
          (0 < options.repetitions → ∃ bytes array tensor, t.read path = .ok bytes ∧
            NpyArray.read bytes = .ok array ∧ array.values d = .ok tensor.values ∧
            tensor.shape = array.shape ∧
            ∀ other, (pack tensor e options).settle other = (.ok (), other ++ words))) ∧
      (options.repetitions = 0 → result = .ok ()) ∧
      (0 < options.repetitions →
        (result = .ok () → ∃ bytes array last, t.read path = .ok bytes ∧
          NpyArray.read bytes = .ok array ∧ array.wordSize = d.bytes ∧
          array.shape.getLast? = some last ∧ 0 < options.blocks ∧ options.blocks ∣ last) ∧
        ∀ bytes array last, t.read path = .ok bytes → NpyArray.read bytes = .ok array →
          array.data.length < Size.memoryLimit → last * e.bits < Size.limit →
          array.wordSize = d.bytes → array.shape.getLast? = some last → 0 < options.blocks →
          options.blocks ∣ last → result = .ok ()) := by
  by_cases hrepetitions : 0 < options.repetitions
  · cases hwords : wordsAt d path e options t with
    | error fault =>
        refine ⟨.error fault, queue, ends_npyToWords_of_error hwords hrepetitions queue,
          .inl ⟨fault, rfl, rfl⟩, fun hzero => absurd hzero (Nat.ne_of_gt hrepetitions),
          fun _ => ⟨nofun, ?_⟩⟩
        intro bytes array last hbytes hread hroom hbits hwidth hlast hpos hdvd
        obtain ⟨words, hok⟩ := exists_wordsAt hbytes hread hwidth hlast hpos hdvd hroom hbits
        cases hwords.symm.trans hok
    | ok words =>
        obtain ⟨tensor, htensor, hpack⟩ := wordsAt_eq_ok_iff.mp hwords
        obtain ⟨bytes, array, hbytes, hread, hvalues, hshape⟩ := tensorAt_eq_ok_iff.mp htensor
        exact ⟨.ok (), _, completes_npyToWords_of_wordsAt hwords queue,
          .inr ⟨rfl, words, rfl, fun _ => ⟨bytes, array, tensor, hbytes, hread, hvalues, hshape, hpack⟩⟩,
          fun _ => rfl, fun _ => ⟨fun _ => readable_of_wordsAt hwords, fun _ _ _ _ _ _ _ _ _ _ _ => rfl⟩⟩
  · have hzero : options.repetitions = 0 := Nat.eq_zero_of_not_pos hrepetitions
    refine ⟨.ok (), queue, ?_, .inr ⟨rfl, [], ?_, fun hpos => absurd hpos hrepetitions⟩,
      fun _ => rfl, fun hpos => absurd hpos hrepetitions⟩
    · unfold npyToWords replays
      rw [hzero]
      exact Job.completes_pure () queue t
    · rw [hzero, List.replicate_zero, List.flatten_nil, List.append_nil]

end

open scoped Platform.Release

def pairsFile : Bytes :=
  Npy.Header.write (.uint .one) [2, 2] ++
    ([1, 2, 3, 4] : List (Scalar (.uint .one))).flatMap Scalar.toLittleEndian

theorem npyToWords_all_or_nothing_twice :
    0 < 2 ∧ Ends (npyToWords (.uint .one) ⟨"in.npy"⟩ (.uint ⟨4, by decide, by decide⟩) ⟨false, 2, 1⟩)
      [Word.zero 3] ⟨[(["in.npy"], .file pairsFile)], []⟩ (.ok ())
      [Word.zero 3, ⟨8, [0x21]⟩, ⟨8, [0x43]⟩, ⟨8, [0x21]⟩, ⟨8, [0x43]⟩]
      ⟨[(["in.npy"], .file pairsFile)], []⟩ := by
  have hfile : FileTree.read ⟨[(["in.npy"], .file pairsFile)], []⟩ ⟨"in.npy"⟩ = .ok pairsFile :=
    FileTree.read_eq_ok_iff.mpr ⟨["in.npy"], ⟨rfl, by decide⟩, rfl⟩
  have hread : NpyArray.read pairsFile =
      .ok (NpyArray.ofValues [2, 2] ([1, 2, 3, 4] : List (Scalar (.uint .one)))) :=
    NpyArray.read_write (by decide) (Npy.Header.storable_of_length _ (by decide) (by decide)) rfl rfl
      (by decide)
  obtain ⟨result, queue', hends, hwords, -, hruns⟩ := npyToWords_all_or_nothing (.uint .one)
    ⟨"in.npy"⟩ (.uint ⟨4, by decide, by decide⟩) ⟨false, 2, 1⟩ _ [Word.zero 3]
  have hok : result = .ok () :=
    (hruns (by decide)).2 _ _ 2 hfile hread (by decide) (by decide) rfl rfl (by decide) (by decide)
  subst hok
  rcases hwords with ⟨fault, hfault, -⟩ | ⟨-, words, rfl, htensor⟩
  · cases hfault
  · obtain ⟨bytes, array, tensor, hfile', hread', hvalues, hshape, hpack⟩ := htensor (by decide)
    rw [← Except.ok.inj (hfile.symm.trans hfile')] at hread'
    have harray := Except.ok.inj (hread.symm.trans hread')
    subst harray
    have hpairs : tensor = ⟨[2, 2], [1, 2, 3, 4], by decide, by decide, by decide, by decide⟩ :=
      Tensor.ext hshape (Except.ok.inj (hvalues.symm.trans (NpyArray.values_ofValues _ _)))
    subst hpairs
    have hpacked : words = [⟨8, [0x21]⟩, ⟨8, [0x43]⟩] :=
      (congrArg Prod.snd (hpack [])).symm.trans (by decide)
    subst hpacked
    exact ⟨by decide, hends⟩

end Bitpack.Packing
