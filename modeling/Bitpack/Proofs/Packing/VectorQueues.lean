import Bitpack.Proofs.Packing.Vectors

/-!
Unpacking whatever vectors are queued. One vector is taken for each block of each outer position, in
that order, and the block is read from its own lanes of its own vector; if the queue is too short, it
is used up.
-/
namespace Bitpack.Packing

open Streaming (Transfer)

theorem map_index_blockOrder (l : Layout) :
    (blockOrder l).map (fun entry => entry.1 * l.blocks + entry.2) =
      List.range (l.outer * l.blocks) := by
  rw [← Layout.flatMap_range_mul]
  unfold blockOrder
  simp [List.map_flatMap, Function.comp_def]

theorem length_blockOrder (l : Layout) : (blockOrder l).length = l.outer * l.blocks := by
  rw [← List.length_map, map_index_blockOrder, List.length_range]

def queuedVector {lane : Dtype} {lanes : Nat} (l : Layout)
    (queue : List (Vector (Scalar lane) lanes)) (entry : Nat × Nat) :
    Vector (Scalar lane) lanes :=
  queue[entry.1 * l.blocks + entry.2]?.getD (Vector.replicate lanes 0)

theorem map_queuedVector {lane : Dtype} {lanes : Nat} {l : Layout}
    {queue : List (Vector (Scalar lane) lanes)} (hcount : l.outer * l.blocks ≤ queue.length) :
    (blockOrder l).map (queuedVector l queue) = queue.take (l.outer * l.blocks) := by
  have hindex : (blockOrder l).map (queuedVector l queue) =
      (List.range (l.outer * l.blocks)).map fun i => queue[i]?.getD (Vector.replicate lanes 0) := by
    rw [← map_index_blockOrder, List.map_map]
    rfl
  rw [hindex]
  apply List.ext_getElem?
  intro i
  by_cases hi : i < l.outer * l.blocks
  · have hget := List.getElem?_eq_getElem (Nat.lt_of_lt_of_le hi hcount)
    rw [List.getElem?_map, List.getElem?_range hi, List.getElem?_take_of_lt hi, Option.map_some, hget,
      Option.getD_some]
  · rw [List.getElem?_eq_none (by simpa using hi), List.getElem?_eq_none (by simp; omega)]

section

variable [Platform] {d lane : Dtype} {lanes : Nat} {options : Options} {l : Layout}
  {queue : List (Vector (Scalar lane) lanes)}

theorem settle_unpackBlock_nil (l : Layout) (options : Options) (outer block : Nat) :
    (unpackBlock d l options outer block).settle ([] : List (Vector (Scalar lane) lanes)) =
      (.error (.stream .empty), []) := by
  unfold unpackBlock
  exact Transfer.settle_bind_of_error Transfer.settle_receive_nil

theorem settle_unpackBlocks_of_short {order : List (Nat × Nat)}
    (horder : ∀ entry ∈ order, entry.2 < l.blocks) (hlanes : l.innerFull ≤ lanes)
    (hshort : queue.length < order.length) :
    (unpackBlocks d l options order).settle queue = (.error (.stream .empty), []) := by
  induction order generalizing queue with
  | nil => exact absurd hshort (Nat.not_lt_zero _)
  | cons entry rest ih =>
      cases queue with
      | nil => exact Transfer.settle_bind_of_error (settle_unpackBlock_nil l options entry.1 entry.2)
      | cons vector queue =>
          have hrest := ih (fun other hother => horder other (List.mem_cons_of_mem _ hother))
            (Nat.lt_of_succ_lt_succ hshort)
          rw [unpackBlocks, Transfer.settle_bind_of_ok (settle_unpackBlock options entry.1
            (horder entry List.mem_cons_self) hlanes vector queue)]
          exact Transfer.settle_bind_of_error hrest

section

variable {shape : List Nat}

theorem settle_unpackVectors_of_error {fault : Error}
    (hlayout : Layout.ofShape shape options.blocks = .error fault) :
    (unpackVectors d shape options).settle queue = (.error fault, queue) := by
  unfold unpackVectors
  rw [hlayout]
  rfl

variable (hlayout : Layout.ofShape shape options.blocks = .ok l) (hlanes : l.innerFull ≤ lanes)

include hlayout hlanes

theorem settle_unpackVectors_of_reserve {result : Except Error Unit}
    (hreserve : l.reserve d.bytes = result) :
    (unpackVectors d shape options).settle queue =
      (Transfer.lift result >>= fun _ => unpackBlocks d l options (blockOrder l) >>= fun values =>
        Transfer.lift (Tensor.ofValues shape values)).settle queue := by
  unfold unpackVectors
  rw [hlayout, Transfer.settle_bind_of_ok (Transfer.settle_lift _ _),
    if_neg (Nat.not_lt_of_le hlanes), Transfer.settle_bind_of_ok (Transfer.settle_report _ _),
    hreserve]

theorem settle_unpackVectors_of_short (hreserve : l.reserve d.bytes = .ok ())
    (hshort : queue.length < l.outer * l.blocks) :
    (unpackVectors d shape options).settle queue = (.error (.stream .empty), []) := by
  rw [settle_unpackVectors_of_reserve hlayout hlanes hreserve,
    Transfer.settle_bind_of_ok (Transfer.settle_lift _ _)]
  exact Transfer.settle_bind_of_error (settle_unpackBlocks_of_short
    (fun _ hentry => snd_lt_of_mem_blockOrder hentry) hlanes (length_blockOrder l ▸ hshort))

theorem settle_unpackVectors_of_le (hfits : Size.Fits shape)
    (hroom : shape.prod * d.bytes < Size.memoryLimit)
    (hcount : l.outer * l.blocks ≤ queue.length) :
    ∃ t : Tensor d,
      (unpackVectors d shape options).settle queue = (.ok t, queue.drop (l.outer * l.blocks)) ∧
      t.shape = shape ∧
      ∀ o c j, o < l.outer → c < l.blocks → j < l.inner → ∃ vector x,
        queue[o * l.blocks + c]? = some vector ∧
        vector[Layout.blockSlotIndex c j l.inner options.reverseInner]? = some x ∧
        t.values[o * l.innerFull + (c * l.inner + j)]? = some (Scalar.cast d x) := by
  obtain ⟨last, -, hlast, -⟩ := Layout.ofShape_eq_ok_iff.mp hlayout
  obtain ⟨-, -, hsize⟩ := Layout.sizes_of_ofShape hlayout hlast hfits.dropLast
  have hne : shape ≠ [] := by
    rintro rfl
    cases hlast
  have hsettle : ∀ t : Tensor d, t.shape = shape → t.values = (blockOrder l).flatMap
      (fun entry => vectorBlock d l options entry.2 (queuedVector l queue entry)) →
      (unpackVectors d shape options).settle queue = (.ok t, queue.drop (l.outer * l.blocks)) := by
    intro t hshape hvalues
    have hrun := settle_unpackVectors_blockOrder hlayout hlanes hshape hvalues
      (queue.drop (l.outer * l.blocks))
    rwa [map_queuedVector hcount, List.take_append_drop] at hrun
  have hlength := (length_blockOrder_flatMap (d := d) l options (queuedVector l queue)).trans hsize.symm
  refine ⟨⟨shape, _, hne, hlength, hfits, hlength ▸ hroom⟩, hsettle _ rfl rfl, rfl,
    fun o c j ho hc hj => ?_⟩
  have hplace := Nat.lt_of_lt_of_le (position_lt ho hc) hcount
  have hlane := Nat.lt_of_lt_of_le (blockSlotIndex_lt options.reverseInner hc hj) hlanes
  obtain ⟨vector, hvector⟩ : ∃ vector, queue[o * l.blocks + c]? = some vector :=
    ⟨_, List.getElem?_eq_getElem hplace⟩
  obtain ⟨x, hx⟩ : ∃ x, vector[Layout.blockSlotIndex c j l.inner options.reverseInner]? = some x :=
    ⟨_, Vector.getElem?_eq_getElem hlane⟩
  refine ⟨vector, x, hvector, hx, ?_⟩
  rw [getElem?_blockOrder_flatMap options _ ho hc hj, queuedVector, hvector, Option.getD_some, hx,
    Option.getD_some]

end

theorem settle_unpackBlocks_ne_range (hlanes : l.innerFull ≤ lanes) (fault : RangeFault) :
    ((unpackBlocks d l options (blockOrder l)).settle queue).1 ≠ .error (.range fault) := by
  rcases Nat.lt_or_ge queue.length (l.outer * l.blocks) with hshort | hcount
  · rw [settle_unpackBlocks_of_short (fun _ hentry => snd_lt_of_mem_blockOrder hentry) hlanes
      (length_blockOrder l ▸ hshort)]
    nofun
  · have hrun := settle_unpackBlocks (d := d) options
      (fun _ hentry => snd_lt_of_mem_blockOrder hentry) hlanes (queuedVector l queue)
      (queue.drop (l.outer * l.blocks))
    rw [map_queuedVector hcount, List.take_append_drop] at hrun
    rw [hrun]
    nofun

theorem settle_unpackVectors_ne_range (d : Dtype) (shape : List Nat) (options : Options)
    (queue : List (Vector (Scalar lane) lanes)) (fault : RangeFault) :
    ((unpackVectors d shape options).settle queue).1 ≠ .error (.range fault) := by
  intro hrange
  cases hlayout : Layout.ofShape shape options.blocks with
  | error cause =>
      rw [settle_unpackVectors_of_error hlayout] at hrange
      cases hrange
      exact Layout.ofShape_ne_range shape options.blocks fault hlayout
  | ok l =>
      rcases Nat.lt_or_ge lanes l.innerFull with hwide | hlanes
      · rw [settle_unpackVectors_of_lt hlayout hwide] at hrange
        cases hrange
      · rw [settle_unpackVectors_of_reserve hlayout hlanes rfl] at hrange
        cases hreserve : l.reserve d.bytes with
        | error cause =>
            obtain ⟨size, rfl⟩ := Layout.reserve_error hreserve
            rw [hreserve, Transfer.settle_bind_of_error (Transfer.settle_lift _ _)] at hrange
            cases hrange
        | ok _ =>
            rw [hreserve, Transfer.settle_bind_of_ok (Transfer.settle_lift _ _),
              Transfer.settle_bind] at hrange
            split at hrange
            · exact ofValues_ne_range _ _ _ hrange
            · rename_i cause rest hblocks
              cases hrange
              exact settle_unpackBlocks_ne_range hlanes fault (congrArg Prod.fst hblocks)

/-- What unpacking makes of any queue of vectors. A shape without a layout, or with rows longer than a
vector, is refused before a vector is taken. Otherwise, if the sizes fit, one vector is taken for each
block, if there are so many, and every value is cast from the lane of its position in its block; if the
queue ends before, nothing is left of it. No lane is read that a vector does not have, and no position
is counted back beyond the start of its block. -/
theorem unpackVectors_any_queue (d : Dtype) (shape : List Nat) (options : Options) {lane : Dtype}
    {lanes : Nat} (queue : List (Vector (Scalar lane) lanes)) :
    (∀ fault, Layout.ofShape shape options.blocks = .error fault →
      (unpackVectors d shape options).settle queue = (.error fault, queue)) ∧
    (∀ l n, Layout.ofShape shape options.blocks = .ok l → shape.getLast? = some n →
      (lanes < n → (unpackVectors d shape options).settle queue =
        (.error (.shape (.lastTooWide n lanes)), queue)) ∧
      (n ≤ lanes →
        (Size.Fits shape → shape.prod * d.bytes < Size.memoryLimit →
          (shape.dropLast.prod * options.blocks ≤ queue.length → ∃ t : Tensor d,
            (unpackVectors d shape options).settle queue =
              (.ok t, queue.drop (shape.dropLast.prod * options.blocks)) ∧
            t.shape = shape ∧
            ∀ o c j, o < shape.dropLast.prod → c < options.blocks → j < n / options.blocks →
              ∃ vector x, queue[o * options.blocks + c]? = some vector ∧
                vector[c * (n / options.blocks) +
                  if options.reverseInner then n / options.blocks - 1 - j else j]? = some x ∧
                t.values[o * n + (c * (n / options.blocks) + j)]? = some (Scalar.cast d x)) ∧
          (queue.length < shape.dropLast.prod * options.blocks →
            (unpackVectors d shape options).settle queue = (.error (.stream .empty), []))) ∧
        ∀ c j, c < options.blocks → j < n / options.blocks →
          Layout.blockSlotIndex c j (n / options.blocks) options.reverseInner < lanes ∧
          Layout.slotIndex j (n / options.blocks) true + (j + 1) = n / options.blocks)) ∧
    ∀ fault, ((unpackVectors d shape options).settle queue).1 ≠ .error (.range fault) := by
  refine ⟨fun fault hlayout => settle_unpackVectors_of_error hlayout, ?_,
    settle_unpackVectors_ne_range d shape options queue⟩
  intro l n hlayout hlast
  obtain ⟨n', outer, hlast', -, hdvd, -, hl⟩ := Layout.ofShape_eq_ok_iff.mp hlayout
  cases hlast.symm.trans hlast'
  have hblocks : l.blocks = options.blocks := congrArg Layout.blocks hl
  have hinner : l.inner = n / options.blocks := congrArg Layout.inner hl
  have hfull : l.innerFull = n := by rw [hl, Layout.innerFull, Nat.div_mul_cancel hdvd]
  rw [← hfull, ← hblocks]
  rw [← hfull, ← hblocks] at hinner
  rw [← hinner]
  refine ⟨fun hwide => settle_unpackVectors_of_lt hlayout hwide queue, fun hlanes =>
    ⟨fun hfits hroom => ?_, fun c j hc hj => ⟨?_, ?_⟩⟩⟩
  · obtain ⟨houter, -, hcount⟩ := Layout.sizes_of_ofShape hlayout hlast hfits.dropLast
    have hreserve : l.reserve d.bytes = .ok () :=
      Layout.reserve_of_lt (hcount ▸ hfits.prod_lt) (hcount ▸ hroom)
    rw [← houter]
    refine ⟨fun henough => ?_, settle_unpackVectors_of_short hlayout hlanes hreserve⟩
    obtain ⟨t, hsettle, hshape, hvalues⟩ :=
      settle_unpackVectors_of_le (d := d) hlayout hlanes hfits hroom henough
    refine ⟨t, hsettle, hshape, fun o c j ho hc hj => ?_⟩
    have hvalue := hvalues o c j ho hc hj
    rwa [Layout.blockSlotIndex, Layout.slotIndex, Nat.sub_right_comm] at hvalue
  · exact Nat.lt_of_lt_of_le (blockSlotIndex_lt options.reverseInner hc hj) hlanes
  · rw [Layout.slotIndex, if_pos rfl]
    omega

end

open scoped Platform.Release

def laneQueue : List (Vector (Scalar (.uint .one)) 5) :=
  [#v[1, 2, 3, 4, 5], #v[11, 12, 13, 200, 15], #v[21, 22, 23, 24, 25], #v[31, 32, 33, 34, 35],
    #v[41, 42, 43, 44, 45]]

theorem unpackVectors_any_queue_two_blocks :
    (∃ t : Tensor (.int .one),
      (unpackVectors (.int .one) [2, 4] ⟨true, 1, 2⟩).settle laneQueue =
        (.ok t, [#v[41, 42, 43, 44, 45]]) ∧
      t.values[0]? = some 2 ∧ t.values[2]? = some (-56 : Scalar (.int .one)) ∧
      t.values[7]? = some 33) ∧
      (unpackVectors (.int .one) [2, 4] ⟨true, 1, 2⟩).settle (laneQueue.take 3) =
        (.error (.stream .empty), []) ∧
      (∃ t : Tensor (.int .one), t.shape = [2, 0] ∧
        (unpackVectors (.int .one) [2, 0] ⟨true, 1, 2⟩).settle laneQueue =
          (.ok t, [#v[41, 42, 43, 44, 45]])) ∧
      (unpackVectors (.int .one) [2, 6] ⟨true, 1, 2⟩).settle laneQueue =
        (.error (.shape (.lastTooWide 6 5)), laneQueue) ∧
      (unpackVectors (.int .one) [2, 3] ⟨true, 1, 2⟩).settle laneQueue =
        (.error (.indivisible 3 2), laneQueue) := by
  refine ⟨?_, ?_, ?_, ?_, ?_⟩
  · obtain ⟨-, hruns, -⟩ := unpackVectors_any_queue (.int .one) [2, 4] ⟨true, 1, 2⟩ laneQueue
    obtain ⟨hreads, -⟩ := ((hruns ⟨2, 2, 2⟩ 4 rfl rfl).2 (by decide)).1 (by decide) (by decide)
    obtain ⟨t, hsettle, -, hvalues⟩ := hreads (by decide)
    refine ⟨t, hsettle, ?_, ?_, ?_⟩
    · obtain ⟨_, _, ⟨⟩, ⟨⟩, hvalue⟩ := hvalues 0 0 0 (by decide) (by decide) (by decide)
      exact hvalue
    · obtain ⟨_, _, ⟨⟩, ⟨⟩, hvalue⟩ := hvalues 0 1 0 (by decide) (by decide) (by decide)
      exact hvalue
    · obtain ⟨_, _, ⟨⟩, ⟨⟩, hvalue⟩ := hvalues 1 1 1 (by decide) (by decide) (by decide)
      exact hvalue
  · obtain ⟨-, hruns, -⟩ :=
      unpackVectors_any_queue (.int .one) [2, 4] ⟨true, 1, 2⟩ (laneQueue.take 3)
    obtain ⟨-, hshort⟩ := ((hruns ⟨2, 2, 2⟩ 4 rfl rfl).2 (by decide)).1 (by decide) (by decide)
    exact hshort (by decide)
  · obtain ⟨-, hruns, -⟩ := unpackVectors_any_queue (.int .one) [2, 0] ⟨true, 1, 2⟩ laneQueue
    obtain ⟨hreads, -⟩ := ((hruns ⟨2, 0, 2⟩ 0 rfl rfl).2 (by decide)).1 (by decide) (by decide)
    obtain ⟨t, hsettle, hshape, -⟩ := hreads (by decide)
    exact ⟨t, hshape, hsettle⟩
  · obtain ⟨-, hruns, -⟩ := unpackVectors_any_queue (.int .one) [2, 6] ⟨true, 1, 2⟩ laneQueue
    exact (hruns ⟨2, 3, 2⟩ 6 rfl rfl).1 (by decide)
  · exact (unpackVectors_any_queue (.int .one) [2, 3] ⟨true, 1, 2⟩ laneQueue).1 _ rfl

/-- No room is made for `2^62` integers of eight bytes, so that an empty queue is not missed. A shape of
`2^64` rows stops where sizes are checked. -/
theorem unpackVectors_without_room :
    Size.Fits [4611686018427387904, 1] ∧
    Layout.ofShape [4611686018427387904, 1] 1 = .ok ⟨4611686018427387904, 1, 1⟩ ∧
    (unpackVectors (.int .eight) [4611686018427387904, 1] ⟨true, 1, 1⟩).settle
      ([] : List (Vector (Scalar (.int .one)) 1)) = (.error (.size .capacity), []) ∧
    letI := Platform.throughSingle true
    (unpackVectors (.int .eight) [9223372036854775808, 2, 1] ⟨true, 1, 1⟩).settle
      [(#v[1] : Vector (Scalar (.int .one)) 1)] = (.error (.size .overflow), [#v[1]]) :=
  ⟨by decide, rfl, rfl, rfl⟩

end Bitpack.Packing
