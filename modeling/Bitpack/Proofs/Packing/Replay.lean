import Bitpack.Packing.Replay
import Bitpack.Proofs.Npy.Store
import Bitpack.Proofs.Outcome
import Bitpack.Proofs.Packing.RoundTrip

/-!
Replays of whole files. A replayed file leaves one copy of its words for every replay, and from such
copies the file that is saved is the same after every replay.
-/
namespace Bitpack.Packing

open Streaming (Transfer Replay)

variable {ω α β : Type}

namespace Job

/-- A job ends with a result and leaves a queue and a tree, whatever was reported before. -/
def Ends (job : Job ω (StateM FileTree) α) (items : List ω) (t : FileTree)
    (result : Except Error α) (items' : List ω) (t' : FileTree) : Prop :=
  ∀ events, ∃ events', outcome job ⟨items, events⟩ t = (result, ⟨items', events'⟩, t')

/-- A job completes if it succeeds from a queue and a tree, whatever was reported before. -/
def Completes (job : Job ω (StateM FileTree) α) (items : List ω) (t : FileTree) (a : α)
    (items' : List ω) (t' : FileTree) : Prop :=
  ∀ events, ∃ events', outcome job ⟨items, events⟩ t = (.ok a, ⟨items', events'⟩, t')

theorem ends_ok_iff {job : Job ω (StateM FileTree) α} {items items' : List ω} {t t' : FileTree}
    {a : α} : Ends job items t (.ok a) items' t' ↔ Completes job items t a items' t' :=
  Iff.rfl

theorem ends_of_result (result : Except Error α) (items : List ω) (t : FileTree) :
    Ends (ExceptT.mk (pure result) : Job ω (StateM FileTree) α) items t result items t :=
  fun events => ⟨events, rfl⟩

theorem completes_pure (a : α) (items : List ω) (t : FileTree) :
    Completes (pure a : Job ω (StateM FileTree) α) items t a items t :=
  fun events => ⟨events, rfl⟩

theorem completes_of_result {result : Except Error α} {a : α} (hresult : result = .ok a)
    (items : List ω) (t : FileTree) :
    Completes (ExceptT.mk (pure result) : Job ω (StateM FileTree) α) items t a items t := by
  subst hresult
  exact ends_of_result (.ok a) items t

theorem Completes.bind_ends {job : Job ω (StateM FileTree) α}
    {next : α → Job ω (StateM FileTree) β} {items items' items'' : List ω} {t t' t'' : FileTree}
    {a : α} {result : Except Error β} (h : Completes job items t a items' t')
    (h' : Ends (next a) items' t' result items'' t'') :
    Ends (job >>= next) items t result items'' t'' := by
  intro events
  obtain ⟨events', hjob⟩ := h events
  obtain ⟨events'', hnext⟩ := h' events'
  exact ⟨events'', (outcome_bind_of_ok hjob).trans hnext⟩

theorem Completes.bind {job : Job ω (StateM FileTree) α} {next : α → Job ω (StateM FileTree) β}
    {items items' items'' : List ω} {t t' t'' : FileTree} {a : α} {b : β}
    (h : Completes job items t a items' t') (h' : Completes (next a) items' t' b items'' t'') :
    Completes (job >>= next) items t b items'' t'' :=
  h.bind_ends h'

theorem Ends.bind_of_error {job : Job ω (StateM FileTree) α}
    {next : α → Job ω (StateM FileTree) β} {items items' : List ω} {t t' : FileTree} {fault : Error}
    (h : Ends job items t (.error fault) items' t') :
    Ends (job >>= next) items t (.error fault) items' t' := by
  intro events
  obtain ⟨events', hjob⟩ := h events
  exact ⟨events', outcome_bind_of_error hjob⟩

theorem ends_stream {p : Transfer ω α} {items items' : List ω} {result : Except Error α}
    (hp : p.settle items = (result, items')) (t : FileTree) :
    Ends (stream p) items t result items' t := by
  intro events
  obtain ⟨hresult, hitems⟩ := Prod.mk.inj hp
  refine ⟨events ++ (p.run items).events, ?_⟩
  change ((p.run items).result, Station.mk (p.run items).items _, t) = _
  rw [hresult, hitems]

theorem completes_stream {p : Transfer ω α} {items items' : List ω} {a : α}
    (hp : p.settle items = (.ok a, items')) (t : FileTree) :
    Completes (stream p) items t a items' t :=
  ends_stream hp t

theorem completes_report (event : Streaming.Event) (items : List ω) (t : FileTree) :
    Completes (report event : Job ω (StateM FileTree) Unit) items t () items t :=
  completes_stream (Transfer.settle_report event items) t

theorem ends_files {access : ExceptT Error (StateM FileTree) α} {t t' : FileTree}
    {result : Except Error α} (haccess : access.run t = (result, t')) (items : List ω) :
    Ends (files access : Job ω (StateM FileTree) α) items t result items t' := by
  intro events
  refine ⟨events, ?_⟩
  change ((access.run t).1, Station.mk items events, (access.run t).2) = _
  rw [haccess]

theorem completes_files {access : ExceptT Error (StateM FileTree) α} {t t' : FileTree} {a : α}
    (haccess : access.run t = (.ok a, t')) (items : List ω) :
    Completes (files access : Job ω (StateM FileTree) α) items t a items t' :=
  ends_files haccess items

end Job

open Job (Completes Ends)

theorem completes_replayed (which : Replay) (total : Nat) {job : Job ω (StateM FileTree) Unit}
    {count : Nat} (items : Nat → List ω) (t : Nat → FileTree)
    (hjob : ∀ i, i < count → Completes job (items i) (t i) () (items (i + 1)) (t (i + 1)))
    (index : Nat) :
    Completes (replayed which total job count index) (items 0) (t 0) () (items count) (t count) := by
  induction count generalizing index items t with
  | zero => exact Job.completes_pure () (items 0) (t 0)
  | succ count ih =>
      have hrest := ih (fun i => items (i + 1)) (fun i => t (i + 1))
        (fun i hi => hjob (i + 1) (Nat.succ_lt_succ hi)) (index + 1)
      exact (Job.completes_report _ _ _).bind ((hjob 0 (Nat.succ_pos count)).bind hrest)

theorem ends_replayed_of_error (which : Replay) (total : Nat) {job : Job ω (StateM FileTree) Unit}
    {count k : Nat} (items : Nat → List ω) (t : Nat → FileTree)
    (hjob : ∀ i, i < k → Completes job (items i) (t i) () (items (i + 1)) (t (i + 1)))
    {fault : Error} {items' : List ω} {t' : FileTree}
    (hfail : Ends job (items k) (t k) (.error fault) items' t') (hk : k < count) (index : Nat) :
    Ends (replayed which total job count index) (items 0) (t 0) (.error fault) items' t' := by
  obtain ⟨count, rfl⟩ := Nat.exists_eq_succ_of_ne_zero (Nat.ne_zero_of_lt hk)
  induction k generalizing count index items t with
  | zero => exact (Job.completes_report _ _ _).bind_ends hfail.bind_of_error
  | succ k ih =>
      obtain ⟨count, rfl⟩ := Nat.exists_eq_succ_of_ne_zero
        (Nat.ne_zero_of_lt (Nat.lt_of_succ_lt_succ hk))
      have hrest := ih (fun i => items (i + 1)) (fun i => t (i + 1))
        (fun i hi => hjob (i + 1) (Nat.succ_lt_succ hi)) hfail (index + 1) count
        (Nat.lt_of_succ_lt_succ hk)
      exact (Job.completes_report _ _ _).bind_ends ((hjob 0 (Nat.succ_pos k)).bind_ends hrest)

theorem ends_replayed_of_first (which : Replay) (total : Nat) {job : Job ω (StateM FileTree) Unit}
    {count : Nat} {items items' : List ω} {t t' : FileTree} {fault : Error}
    (hfail : Ends job items t (.error fault) items' t') (hcount : 0 < count) (index : Nat) :
    Ends (replayed which total job count index) items t (.error fault) items' t' :=
  ends_replayed_of_error which total (k := 0) (fun _ => items) (fun _ => t)
    (fun i hi => absurd hi (Nat.not_lt_zero i)) hfail hcount index

/-- The tree after the files of the first replays were saved in one place, each over the last. -/
def savedInTurn (t : FileTree) (place : List String) (content : Nat → Bytes) : Nat → FileTree
  | 0 => t
  | count + 1 => NpyArray.saved (savedInTurn t place content count) place (content count)

theorem sameDirectories_savedInTurn {t : FileTree} {place : List String} (hplace : place ≠ [])
    (hfile : t.get? place ≠ some .directory)
    (hhidden : t.get? (NpyArray.hiddenPlace place) ≠ some .directory) (content : Nat → Bytes)
    (count : Nat) : t.SameDirectories (savedInTurn t place content count) := by
  induction count with
  | zero => exact .refl t
  | succ count ih =>
      exact ih.trans (NpyArray.sameDirectories_saved hplace
        (fun hdirectory => hfile ((ih.directory_iff _).mp hdirectory))
        (fun hdirectory => hhidden ((ih.directory_iff _).mp hdirectory)) (content count))

theorem read_savedInTurn_succ {t : FileTree} {path : Path} {place : List String}
    (hpath : t.Leads path place) (hfile : t.get? place ≠ some .directory)
    (hhidden : t.get? (NpyArray.hiddenPlace place) ≠ some .directory) (content : Nat → Bytes)
    (count : Nat) : (savedInTurn t place content (count + 1)).read path = .ok (content count) := by
  have hsame := sameDirectories_savedInTurn hpath.ne_nil hfile hhidden content (count + 1)
  refine FileTree.read_eq_ok_iff.mpr ⟨place, hsame.leads hpath, ?_⟩
  rw [savedInTurn, NpyArray.get?_saved hpath.ne_nil, if_pos rfl]

def savedTimes (t : FileTree) (place : List String) (content : Bytes) (count : Nat) : FileTree :=
  Nat.repeat (fun t => NpyArray.saved t place content) count t

theorem savedTimes_eq (t : FileTree) (place : List String) (content : Bytes) (count : Nat) :
    savedTimes t place content count = savedInTurn t place (fun _ => content) count := by
  induction count with
  | zero => rfl
  | succ count ih => exact congrArg (NpyArray.saved · place content) ih

theorem load_savedTimes {t : FileTree} {path : Path} {place : List String} {content : Bytes}
    {array : NpyArray} (hpath : t.Leads path place) (hfile : t.get? place ≠ some .directory)
    (hhidden : t.get? (NpyArray.hiddenPlace place) ≠ some .directory)
    (hread : NpyArray.read content = .ok array) {count : Nat} (hcount : 0 < count) :
    (NpyArray.load path : ExceptT Error (StateM FileTree) NpyArray).run
      (savedTimes t place content count) = (.ok array, savedTimes t place content count) := by
  obtain ⟨count, rfl⟩ := Nat.exists_eq_succ_of_ne_zero (Nat.ne_of_gt hcount)
  rw [savedTimes_eq]
  exact NpyArray.load_run_eq_ok_iff.mpr ⟨⟨content,
    read_savedInTurn_succ hpath hfile hhidden (fun _ => content) count, hread⟩, rfl⟩

variable [Platform]

theorem completes_loadTensor {d : Dtype} {path : Path} {t : FileTree} {array : NpyArray}
    {values : List (Scalar d)} {tensor : Tensor d}
    (hload : (NpyArray.load path : ExceptT Error (StateM FileTree) NpyArray).run t = (.ok array, t))
    (hvalues : array.values d = .ok values)
    (htensor : Tensor.ofValues array.shape values = .ok tensor) (items : List ω) :
    Completes (loadTensor d path) items t tensor items t := by
  have hmade : Completes (do
      let values ← ExceptT.mk (pure (array.values d))
      ExceptT.mk (pure (Tensor.ofValues array.shape values)) : Job ω (StateM FileTree) (Tensor d))
      items t tensor items t :=
    (Job.completes_of_result hvalues items t).bind (Job.completes_of_result htensor items t)
  refine (Job.completes_files hload items).bind ((Job.completes_report _ items t).bind ?_)
  split
  · exact (Job.completes_report _ items t).bind hmade
  · exact hmade

theorem completes_npyToWords {d : Dtype} {path : Path} {e : ElementType} {options : Options}
    {t : FileTree} {tensor : Tensor d} {words : List Word}
    (hload : ∀ queue : List Word, Completes (loadTensor d path) queue t tensor queue t)
    (hpack : ∀ queue, (pack tensor e options).settle queue = (.ok (), queue ++ words))
    (items : List Word) :
    Completes (npyToWords d path e options) items t ()
      (items ++ (List.replicate options.repetitions words).flatten) t := by
  have hstep (i : Nat) : Completes
      (loadTensor d path >>= fun tensor => Job.stream (pack tensor e options))
      (items ++ (List.replicate i words).flatten) t ()
      (items ++ (List.replicate (i + 1) words).flatten) t := by
    rw [List.replicate_succ', List.flatten_append, List.flatten_singleton, ← List.append_assoc]
    exact (hload _).bind (Job.completes_stream (hpack _) t)
  have hreplays := completes_replayed .npyToWords options.repetitions
    (fun i => items ++ (List.replicate i words).flatten) (fun _ => t)
    (fun i (_ : i < options.repetitions) => hstep i) 0
  unfold npyToWords replays
  simpa using hreplays

theorem completes_unpack_savedInTurn {d : Dtype} {shape : List Nat} {path : Path} {e : ElementType}
    {options : Options} {queue rest : List Word} {tensor : Tensor d} {t : FileTree}
    {place : List String} {content : Nat → Bytes} {i : Nat}
    (hunpack : (unpack d shape e options).settle queue = (.ok tensor, rest))
    (hpath : t.Leads path place) (hfile : t.get? place ≠ some .directory)
    (hhidden : t.get? (NpyArray.hiddenPlace place) ≠ some .directory)
    (hwrite : NpyArray.write tensor.shape tensor.values = .ok (content i)) :
    Completes (Job.stream (unpack d shape e options) >>= fun tensor =>
        Job.files (NpyArray.save path tensor.shape tensor.values))
      queue (savedInTurn t place content i) () rest (savedInTurn t place content (i + 1)) := by
  have hsame := sameDirectories_savedInTurn hpath.ne_nil hfile hhidden content i
  have hsave := NpyArray.save_run (hsame.leads hpath)
    (fun hdirectory => hfile ((hsame.directory_iff _).mp hdirectory))
    (fun hdirectory => hhidden ((hsame.directory_iff _).mp hdirectory)) hwrite
  exact (Job.completes_stream hunpack _).bind (Job.completes_files hsave _)

theorem completes_wordsToNpy {d : Dtype} {shape : List Nat} {path : Path} {e : ElementType}
    {options : Options} {words rest : List Word} {tensor : Tensor d} {t : FileTree}
    {place : List String} {content : Bytes}
    (hunpack : ∀ queue, (unpack d shape e options).settle (words ++ queue) = (.ok tensor, queue))
    (hpath : t.Leads path place) (hfile : t.get? place ≠ some .directory)
    (hhidden : t.get? (NpyArray.hiddenPlace place) ≠ some .directory)
    (hwrite : NpyArray.write tensor.shape tensor.values = .ok content) :
    Completes (wordsToNpy d shape path e options)
      ((List.replicate options.repetitions words).flatten ++ rest) t () rest
      (savedTimes t place content options.repetitions) := by
  have hstep (i : Nat) (hi : i < options.repetitions) : Completes
      (Job.stream (unpack d shape e options) >>= fun tensor =>
        Job.files (NpyArray.save path tensor.shape tensor.values))
      ((List.replicate (options.repetitions - i) words).flatten ++ rest)
      (savedInTurn t place (fun _ => content) i) ()
      ((List.replicate (options.repetitions - (i + 1)) words).flatten ++ rest)
      (savedInTurn t place (fun _ => content) (i + 1)) := by
    have hcopies : options.repetitions - i = options.repetitions - (i + 1) + 1 := by omega
    rw [hcopies, List.replicate_succ, List.flatten_cons, List.append_assoc]
    exact completes_unpack_savedInTurn (hunpack _) hpath hfile hhidden hwrite
  have hreplays := completes_replayed .wordsToNpy options.repetitions
    (fun i => (List.replicate (options.repetitions - i) words).flatten ++ rest)
    (savedInTurn t place fun _ => content) hstep 0
  unfold wordsToNpy replays
  rw [savedTimes_eq]
  simpa [savedInTurn] using hreplays

end Bitpack.Packing
