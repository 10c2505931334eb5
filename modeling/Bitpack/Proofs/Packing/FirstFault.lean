import Bitpack.Proofs.Packing.Replay

/-!
Unpacking a queue into a file as often as the options say. A run stops at the first word that is
missing or too narrow, and what was saved before it stays.
-/
namespace Bitpack.Packing

open Streaming (Transfer)
open Job (Completes Ends)

/-- The word in front of a queue cannot be unpacked, with the error that this is and what it leaves. -/
inductive Broken (need : Nat) : List Word → Error → List Word → Prop
  | missing : Broken need [] (.stream .empty) []
  | narrow {w : Word} {rest : List Word} (hwidth : w.width < need) :
      Broken need (w :: rest) (.wordWidth need w.width) rest

/-- A word of a queue is there, and wide enough. -/
def WideAt (need : Nat) (queue : List Word) (i : Nat) : Prop :=
  ∃ w, queue[i]? = some w ∧ need ≤ w.width

def window (queue : List Word) (outer k : Nat) : List Word :=
  (queue.drop (k * outer)).take outer

theorem width_of_wideAt {need start count : Nat} {queue : List Word}
    (hwide : ∀ i, i < start + count → WideAt need queue i) :
    (∀ w ∈ (queue.drop start).take count, need ≤ w.width) ∧
      ((queue.drop start).take count).length = count := by
  constructor
  · intro w hw
    obtain ⟨i, hi, hget⟩ := List.mem_take_iff_getElem.mp hw
    obtain ⟨v, hv, hwidth⟩ := hwide (start + i) (by omega)
    rw [List.getElem_drop] at hget
    simp only [List.length_drop] at hi
    rw [List.getElem?_eq_getElem (by omega), hget] at hv
    cases hv
    exact hwidth
  · rcases Nat.eq_zero_or_pos count with rfl | hpos
    · simp
    · obtain ⟨w, hw, -⟩ := hwide (start + count - 1) (by omega)
      have hlength := (List.getElem?_eq_some_iff.mp hw).1
      simp
      omega

theorem window_append_drop (queue : List Word) (outer k : Nat) :
    window queue outer k ++ queue.drop ((k + 1) * outer) = queue.drop (k * outer) := by
  have hnext : queue.drop ((k + 1) * outer) = (queue.drop (k * outer)).drop outer := by
    rw [List.drop_drop, Nat.succ_mul]
  rw [hnext]
  exact List.take_append_drop _ _

theorem Broken.of_none {need i : Nat} {queue : List Word} (hget : queue[i]? = none) :
    Broken need (queue.drop i) (.stream .empty) (queue.drop i) := by
  rw [List.drop_eq_nil_of_le (List.getElem?_eq_none_iff.mp hget)]
  exact .missing

theorem Broken.of_narrow {need i : Nat} {queue : List Word} {w : Word} (hget : queue[i]? = some w)
    (hwidth : w.width < need) :
    Broken need (queue.drop i) (.wordWidth need w.width) (queue.drop (i + 1)) := by
  obtain ⟨hi, rfl⟩ := List.getElem?_eq_some_iff.mp hget
  rw [List.drop_eq_getElem_cons hi]
  exact .narrow hwidth

section

variable [Platform] {d : Dtype} {e : ElementType} {options : Options} {l : Layout}

theorem settle_unpackRow_of_broken {queue rest : List Word} {fault : Error}
    (hbroken : Broken (l.slotBits e.bits) queue fault rest) (outer : Nat) :
    (unpackRow d l (l.slotBits e.bits) e options outer).settle queue = (.error fault, rest) := by
  unfold unpackRow
  cases hbroken with
  | missing => simp [Transfer.settle_bind]
  | narrow hwidth => simp [Transfer.settle_bind, hwidth]

theorem settle_unpackRows_of_broken {words bad rest : List Word} {fault : Error}
    (hwidths : ∀ w ∈ words, l.slotBits e.bits ≤ w.width)
    (hbroken : Broken (l.slotBits e.bits) bad fault rest) {count : Nat}
    (hlength : words.length < count) (outer : Nat) :
    (unpackRows d l (l.slotBits e.bits) e options count outer).settle (words ++ bad) =
      (.error fault, rest) := by
  induction words generalizing count outer with
  | nil =>
      obtain ⟨count, rfl⟩ := Nat.exists_eq_succ_of_ne_zero (Nat.ne_zero_of_lt hlength)
      exact Transfer.settle_bind_of_error (settle_unpackRow_of_broken hbroken outer)
  | cons w words ih =>
      obtain ⟨count, rfl⟩ := Nat.exists_eq_succ_of_ne_zero (Nat.ne_zero_of_lt hlength)
      rw [unpackRows, List.cons_append, Transfer.settle_bind_of_ok
        (settle_unpackRow d options outer (hwidths w List.mem_cons_self) (words ++ bad))]
      apply Transfer.settle_bind_of_error
      exact ih (fun other hother => hwidths other (List.mem_cons_of_mem _ hother))
        (Nat.lt_of_succ_lt_succ hlength) (outer + 1)

theorem settle_unpack_of_broken {shape : List Nat} (hsized : Sized d shape e)
    (hlayout : Layout.ofShape shape options.blocks = .ok l) {words bad rest : List Word}
    {fault : Error} (hwidths : ∀ w ∈ words, l.slotBits e.bits ≤ w.width)
    (hbroken : Broken (l.slotBits e.bits) bad fault rest) (hlength : words.length < l.outer) :
    (unpack d shape e options).settle (words ++ bad) = (.error fault, rest) := by
  obtain ⟨-, -, -, hbits, hreserve⟩ := hsized.sizes_of_ofShape hlayout
  unfold unpack
  rw [hlayout, Transfer.settle_bind_of_ok (Transfer.settle_lift _ _), Layout.wordBits_of_lt hbits,
    Transfer.settle_bind_of_ok (Transfer.settle_lift _ _),
    Transfer.settle_bind_of_ok (Transfer.settle_report _ _), hreserve,
    Transfer.settle_bind_of_ok (Transfer.settle_lift _ _)]
  apply Transfer.settle_bind_of_error
  exact settle_unpackRows_of_broken hwidths hbroken hlength 0

theorem settle_unpack_of_error {shape : List Nat} {fault : Error}
    (hlayout : Layout.ofShape shape options.blocks = .error fault) (queue : List Word) :
    (unpack d shape e options).settle queue = (.error fault, queue) := by
  unfold unpack
  rw [hlayout]
  exact Transfer.settle_bind_of_error (Transfer.settle_lift _ queue)

/-- What complete replays leave: the tree as it was, or the tensor of the last of them in the file. -/
def Left (d : Dtype) (shape : List Nat) (path : Path) (e : ElementType) (options : Options)
    (queue : List Word) (t : FileTree) : Nat → FileTree → Prop
  | 0, t' => t' = t
  | k + 1, t' => ∃ (tensor : Tensor d) (content : Bytes),
      (unpack d shape e options).settle (window queue shape.dropLast.prod k) = (.ok tensor, []) ∧
      NpyArray.write tensor.shape tensor.values = .ok content ∧ t'.read path = .ok content

def replayFile (d : Dtype) (shape : List Nat) (e : ElementType) (l : Layout) (options : Options)
    (queue : List Word) (k : Nat) : Bytes :=
  Npy.Header.write d shape ++
    ((window queue l.outer k).flatMap (wordRow d e l options)).flatMap Scalar.toLittleEndian

variable {shape : List Nat} {path : Path} {queue : List Word} {t : FileTree} {place : List String}

theorem exists_replayFile (hsized : Sized d shape e)
    (hlayout : Layout.ofShape shape options.blocks = .ok l) {k : Nat}
    (hwide : ∀ i, i < (k + 1) * l.outer → WideAt (l.slotBits e.bits) queue i) :
    ∃ tensor : Tensor d,
      (∀ rest, (unpack d shape e options).settle (window queue l.outer k ++ rest) =
        (.ok tensor, rest)) ∧
      NpyArray.write tensor.shape tensor.values =
        .ok (replayFile d shape e l options queue k) := by
  rw [Nat.succ_mul] at hwide
  obtain ⟨hwidths, hlength⟩ := width_of_wideAt hwide
  obtain ⟨tensor, hshape, hvalues, hunpack⟩ := settle_unpack d hlayout hsized hlength hwidths
  refine ⟨tensor, hunpack, ?_⟩
  rw [NpyArray.write_of_length
    (hshape ▸ Npy.Header.elementCount_of_lt (Size.fits_iff.mp hsized.fits)) tensor.length_values,
    hshape, hvalues]
  rfl

theorem ends_replay_of_broken (hsized : Sized d shape e) (path : Path)
    (hlayout : Layout.ofShape shape options.blocks = .ok l) {i : Nat}
    (hwide : ∀ j, j < i → WideAt (l.slotBits e.bits) queue j) (hpos : 0 < l.outer)
    {fault : Error} {rest : List Word}
    (hbroken : Broken (l.slotBits e.bits) (queue.drop i) fault rest) (t : FileTree) :
    Ends (Job.stream (unpack d shape e options) >>= fun tensor =>
        Job.files (NpyArray.save path tensor.shape tensor.values))
      (queue.drop (i / l.outer * l.outer)) t (.error fault) rest t := by
  have hsum : i / l.outer * l.outer + i % l.outer = i := Nat.div_add_mod' i l.outer
  -- The replay with the word `i` starts at a multiple of `l.outer` and gets as far as `i`.
  have hsplit : queue.drop (i / l.outer * l.outer) =
      (queue.drop (i / l.outer * l.outer)).take (i % l.outer) ++ queue.drop i := by
    conv_rhs => rw [← hsum, ← List.drop_drop, Nat.div_add_mod']
    exact (List.take_append_drop _ _).symm
  rw [← hsum] at hwide
  obtain ⟨hwidths, hlength⟩ := width_of_wideAt hwide
  rw [hsplit]
  apply Job.Ends.bind_of_error
  refine Job.ends_stream (settle_unpack_of_broken hsized hlayout hwidths hbroken ?_) t
  rw [hlength]
  exact Nat.mod_lt i hpos

section

variable (hsized : Sized d shape e) (hpath : t.Leads path place) (hfile : t.get? place ≠ some .directory)
  (hhidden : t.get? (NpyArray.hiddenPlace place) ≠ some .directory)
  (hlayout : Layout.ofShape shape options.blocks = .ok l)

include hsized hpath hfile hhidden hlayout

theorem left_savedInTurn {k : Nat}
    (hwide : ∀ i, i < k * l.outer → WideAt (l.slotBits e.bits) queue i) :
    Left d shape path e options queue t k
      (savedInTurn t place (replayFile d shape e l options queue) k) := by
  cases k with
  | zero => rfl
  | succ k =>
      obtain ⟨-, houter, -⟩ := hsized.sizes_of_ofShape hlayout
      obtain ⟨tensor, hunpack, hwrite⟩ := exists_replayFile hsized hlayout hwide
      refine ⟨tensor, _, ?_, hwrite, read_savedInTurn_succ hpath hfile hhidden _ k⟩
      rw [← houter, ← List.append_nil (window queue l.outer k)]
      exact hunpack []

theorem completes_replay {k : Nat}
    (hwide : ∀ i, i < (k + 1) * l.outer → WideAt (l.slotBits e.bits) queue i) :
    Completes (Job.stream (unpack d shape e options) >>= fun tensor =>
        Job.files (NpyArray.save path tensor.shape tensor.values))
      (queue.drop (k * l.outer))
      (savedInTurn t place (replayFile d shape e l options queue) k) ()
      (queue.drop ((k + 1) * l.outer))
      (savedInTurn t place (replayFile d shape e l options queue) (k + 1)) := by
  obtain ⟨tensor, hunpack, hwrite⟩ := exists_replayFile hsized hlayout hwide
  rw [← window_append_drop]
  exact completes_unpack_savedInTurn (hunpack _) hpath hfile hhidden hwrite

theorem completes_wordsToNpy_of_wide
    (hwide : ∀ i, i < options.repetitions * l.outer → WideAt (l.slotBits e.bits) queue i) :
    Completes (wordsToNpy d shape path e options) queue t ()
      (queue.drop (options.repetitions * l.outer))
      (savedInTurn t place (replayFile d shape e l options queue) options.repetitions) := by
  have hreplays := completes_replayed .wordsToNpy options.repetitions
    (fun k => queue.drop (k * l.outer))
    (savedInTurn t place (replayFile d shape e l options queue))
    (fun k hk => completes_replay hsized hpath hfile hhidden hlayout fun i hi =>
      hwide i (Nat.lt_of_lt_of_le hi (Nat.mul_le_mul_right l.outer hk))) 0
  simpa [wordsToNpy, replays, savedInTurn] using hreplays

theorem ends_wordsToNpy_of_broken {i : Nat} (hi : i < options.repetitions * l.outer)
    (hwide : ∀ j, j < i → WideAt (l.slotBits e.bits) queue j) {fault : Error} {rest : List Word}
    (hbroken : Broken (l.slotBits e.bits) (queue.drop i) fault rest) :
    Ends (wordsToNpy d shape path e options) queue t (.error fault) rest
      (savedInTurn t place (replayFile d shape e l options queue) (i / l.outer)) := by
  have hpos : 0 < l.outer := Nat.pos_of_mul_pos_left (Nat.zero_lt_of_lt hi)
  have hfail := ends_replay_of_broken hsized path hlayout hwide hpos hbroken
    (savedInTurn t place (replayFile d shape e l options queue) (i / l.outer))
  have hreplays := ends_replayed_of_error .wordsToNpy options.repetitions
    (fun k => queue.drop (k * l.outer))
    (savedInTurn t place (replayFile d shape e l options queue))
    (fun k hk => completes_replay hsized hpath hfile hhidden hlayout fun j hj =>
      hwide j (Nat.lt_of_lt_of_le hj ((Nat.le_div_iff_mul_le hpos).mp hk)))
    hfail ((Nat.div_lt_iff_lt_mul hpos).mpr hi) 0
  simpa [wordsToNpy, replays, savedInTurn] using hreplays

end

theorem ends_wordsToNpy_of_layout (d : Dtype) (e : ElementType) (path : Path) {fault : Error}
    (hlayout : Layout.ofShape shape options.blocks = .error fault)
    (hrepetitions : 0 < options.repetitions) (queue : List Word) (t : FileTree) :
    Ends (wordsToNpy d shape path e options) queue t (.error fault) queue t := by
  have hfail : Ends (Job.stream (unpack d shape e options) >>= fun tensor =>
      Job.files (NpyArray.save path tensor.shape tensor.values)) queue t (.error fault) queue t := by
    apply Job.Ends.bind_of_error
    exact Job.ends_stream (settle_unpack_of_error hlayout queue) t
  exact ends_replayed_of_first .wordsToNpy options.repetitions hfail hrepetitions 0

/-- A whole run, on whatever is queued. Without replays nothing happens, and a shape without a layout
is refused before anything else. Otherwise the run takes as many words as all replays need, or stops
at the first one that is missing or too narrow; the narrow word is taken as well. The file is that of
the last replay that had all its words, and nothing is written if there is none. -/
theorem wordsToNpy_stops_at_first_fault (d : Dtype) (e : ElementType) (options : Options)
    (queue : List Word) {t : FileTree} {path : Path} (hpath : NpyArray.Savable t path)
    (shape : List Nat) :
    (options.repetitions = 0 → Ends (wordsToNpy d shape path e options) queue t (.ok ()) queue t) ∧
      (0 < options.repetitions →
        (∀ fault, Layout.ofShape shape options.blocks = .error fault →
          Ends (wordsToNpy d shape path e options) queue t (.error fault) queue t) ∧
        ∀ l last, Layout.ofShape shape options.blocks = .ok l → shape.getLast? = some last →
          Sized d shape e →
          ((∀ i, i < options.repetitions * shape.dropLast.prod → WideAt (last * e.bits) queue i) →
            ∃ t', Ends (wordsToNpy d shape path e options) queue t (.ok ())
                (queue.drop (options.repetitions * shape.dropLast.prod)) t' ∧
              Left d shape path e options queue t options.repetitions t') ∧
          ∀ i, i < options.repetitions * shape.dropLast.prod →
            (∀ j, j < i → WideAt (last * e.bits) queue j) →
            (queue[i]? = none →
              ∃ t', Ends (wordsToNpy d shape path e options) queue t (.error (.stream .empty))
                  (queue.drop i) t' ∧
                Left d shape path e options queue t (i / shape.dropLast.prod) t') ∧
            ∀ w, queue[i]? = some w → w.width < last * e.bits →
              ∃ t', Ends (wordsToNpy d shape path e options) queue t
                  (.error (.wordWidth (last * e.bits) w.width)) (queue.drop (i + 1)) t' ∧
                Left d shape path e options queue t (i / shape.dropLast.prod) t') := by
  obtain ⟨place, hleads, hfile, hhidden⟩ := hpath
  refine ⟨fun hzero => ?_, fun hpos => ⟨fun fault hlayout =>
    ends_wordsToNpy_of_layout d e path hlayout hpos queue t, fun l last hlayout hlast hsized => ?_⟩⟩
  · unfold wordsToNpy replays
    rw [hzero]
    exact Job.completes_pure () queue t
  · obtain ⟨houter, hfull, -⟩ := Layout.sizes_of_ofShape hlayout hlast hsized.fits.dropLast
    rw [← houter, ← hfull]
    refine ⟨fun hwide => ?_, fun i hi hwide => ?_⟩
    · exact ⟨_, completes_wordsToNpy_of_wide hsized hleads hfile hhidden hlayout hwide,
        left_savedInTurn hsized hleads hfile hhidden hlayout hwide⟩
    · have hleft := left_savedInTurn (e := e) hsized hleads hfile hhidden hlayout
        fun j hj => hwide j (Nat.lt_of_lt_of_le hj (Nat.div_mul_le_self i l.outer))
      refine ⟨fun hmissing => ⟨_, ?_, hleft⟩, fun w hget hnarrow => ⟨_, ?_, hleft⟩⟩
      · exact ends_wordsToNpy_of_broken hsized hleads hfile hhidden hlayout hi hwide
          (.of_none hmissing)
      · exact ends_wordsToNpy_of_broken hsized hleads hfile hhidden hlayout hi hwide
          (.of_narrow hget hnarrow)

end

open scoped Platform.Release

def mixedQueue : List Word :=
  [⟨8, [0x21]⟩, ⟨9, [0x1F8]⟩, ⟨8, [0]⟩, ⟨7, [0]⟩, ⟨8, [0]⟩]

theorem wordsToNpy_stops_at_narrow_word :
    NpyArray.Savable ⟨[], []⟩ ⟨"out.npy"⟩ ∧
      Sized (.int .one) [2, 2] (.int ⟨4, by decide, by decide⟩) ∧
      ∃ t', Ends (wordsToNpy (.int .one) [2, 2] ⟨"out.npy"⟩ (.int ⟨4, by decide, by decide⟩)
          ⟨false, 3, 1⟩) mixedQueue ⟨[], []⟩ (.error (.wordWidth 8 7)) [⟨8, [0]⟩] t' ∧
      t'.read ⟨"out.npy"⟩ = .ok (Npy.Header.write (.int .one) [2, 2] ++ [1, 2, 0xF8, 0xFF]) := by
  have hpath : NpyArray.Savable ⟨[], []⟩ ⟨"out.npy"⟩ :=
    ⟨["out.npy"], ⟨rfl, by decide⟩, by decide, by decide +kernel⟩
  have hsized : Sized (.int .one) [2, 2] (.int ⟨4, by decide, by decide⟩) :=
    sized_of_getLast? (show List.getLast? [_, 2] = some 2 from rfl) (by decide) (by decide) (by decide)
  have hwide : ∀ j, j < 3 → WideAt 8 mixedQueue j := by
    rintro (_ | _ | _ | j) hj
    · exact ⟨_, rfl, by decide⟩
    · exact ⟨_, rfl, by decide⟩
    · exact ⟨_, rfl, by decide⟩
    · omega
  obtain ⟨-, hruns⟩ := wordsToNpy_stops_at_first_fault (.int .one) (.int ⟨4, by decide, by decide⟩)
    ⟨false, 3, 1⟩ mixedQueue hpath [2, 2]
  obtain ⟨-, hfaults⟩ := (hruns (by decide)).2 ⟨2, 2, 1⟩ 2 rfl rfl hsized
  obtain ⟨t', hends, tensor, content, hunpack, hwrite, hread⟩ :=
    (hfaults 3 (by decide) hwide).2 _ rfl (by decide)
  have hfirst : tensor = ⟨[2, 2], [1, 2, -8, -1], by decide, by decide, by decide, by decide⟩ :=
    Except.ok.inj (congrArg Prod.fst hunpack).symm
  subst hfirst
  have hcontent := hwrite.symm.trans
    (NpyArray.write_of_length (Npy.Header.elementCount_of_lt (Size.fits_iff.mp hsized.fits)) rfl)
  rw [Except.ok.inj hcontent] at hread
  exact ⟨hpath, hsized, t', hends, hread⟩

/-- Room for `2^62` integers of eight bytes is not made, so that nothing is asked of the queue. -/
theorem wordsToNpy_without_room :
    NpyArray.Savable ⟨[], []⟩ ⟨"out.npy"⟩ ∧ Size.Fits [4611686018427387904, 1] ∧
      Layout.ofShape [4611686018427387904, 1] 1 = .ok ⟨4611686018427387904, 1, 1⟩ ∧
      Ends (wordsToNpy (.int .eight) [4611686018427387904, 1] ⟨"out.npy"⟩
        (.int ⟨8, by decide, by decide⟩) ⟨true, 1, 1⟩) [] ⟨[], []⟩ (.error (.size .capacity)) []
        ⟨[], []⟩ :=
  ⟨⟨["out.npy"], ⟨rfl, by decide⟩, by decide, by decide +kernel⟩, by decide, rfl, fun _ => ⟨_, rfl⟩⟩

end Bitpack.Packing
