import Bitpack.Proofs.Packing.Lanes

/-!
Vectors there and back. A tensor is packed into one vector for each outer position, in the order of
its elements, and unpacked from one vector for each block, reversed inside the blocks; a vector that
is handed over once for each of its blocks gives the row with every block reversed.
-/
namespace Bitpack.Packing

open Streaming (Transfer)

private theorem mapM_eq_ok {α β : Type} {f : α → Except Error β} {g : α → β} {as : List α}
    (h : ∀ a ∈ as, f a = .ok (g a)) : as.mapM f = .ok (as.map g) := by
  induction as with
  | nil => rfl
  | cons a as ih =>
      rw [List.mapM_cons, h a List.mem_cons_self, ih fun b hb => h b (List.mem_cons_of_mem _ hb)]
      rfl

theorem blockSlotIndex_lt {l : Layout} {block position : Nat} (reverse : Bool)
    (hblock : block < l.blocks) (hposition : position < l.inner) :
    Layout.blockSlotIndex block position l.inner reverse < l.innerFull :=
  Layout.lt_innerFull_of_mem
    (List.mem_of_getElem? (Layout.getElem?_slotOrder reverse hblock hposition))

theorem snd_lt_of_mem_blockOrder {l : Layout} {entry : Nat × Nat} (h : entry ∈ blockOrder l) :
    entry.2 < l.blocks := by
  obtain ⟨outer, -, hentry⟩ := List.mem_flatMap.mp h
  obtain ⟨block, hblock, rfl⟩ := List.mem_map.mp hentry
  exact List.mem_range.mp hblock

theorem flatMap_blockOrder {α : Type} (l : Layout) (f : Nat × Nat → List α) :
    (blockOrder l).flatMap f = (List.range l.outer).flatMap fun o =>
      (List.range l.blocks).flatMap fun c => f (o, c) := by
  unfold blockOrder
  simp [List.flatMap_assoc, List.flatMap_map]

theorem position_lt {outer n o i : Nat} (ho : o < outer) (hi : i < n) : o * n + i < outer * n :=
  calc
    o * n + i < (o + 1) * n := by rw [Nat.add_one_mul]; omega
    _ ≤ outer * n := Nat.mul_le_mul_right n ho

theorem readLane_of_lt {lane : Dtype} {lanes : Nat} (vector : Vector (Scalar lane) lanes) {i : Nat}
    (hi : i < lanes) : readLane vector i = .ok (vector[i]?.getD 0) := by
  unfold readLane
  rw [Vector.getElem?_eq_getElem hi]
  rfl

section

variable [Platform] {d lane : Dtype} {lanes : Nat}

/-- The lanes of one block in the order in which they are read. -/
def vectorBlock (d : Dtype) (l : Layout) (options : Options) (block : Nat)
    (vector : Vector (Scalar lane) lanes) : List (Scalar d) :=
  (List.range l.inner).map fun position =>
    Scalar.cast d
      (vector[Layout.blockSlotIndex block position l.inner options.reverseInner]?.getD 0)

theorem length_vectorBlock (l : Layout) (options : Options) (block : Nat)
    (vector : Vector (Scalar lane) lanes) :
    (vectorBlock d l options block vector).length = l.inner := by
  simp [vectorBlock]

theorem settle_unpackBlock {l : Layout} (options : Options) (outer : Nat) {block : Nat}
    (hblock : block < l.blocks) (hlanes : l.innerFull ≤ lanes)
    (vector : Vector (Scalar lane) lanes) (queue : List (Vector (Scalar lane) lanes)) :
    (unpackBlock d l options outer block).settle (vector :: queue) =
      (.ok (vectorBlock d l options block vector), queue) := by
  unfold unpackBlock
  rw [Transfer.settle_bind_of_ok (Transfer.settle_receive_cons vector queue),
    Transfer.settle_bind_of_ok (Transfer.settle_report _ queue), Transfer.settle_lift]
  refine congrArg (·, queue) (mapM_eq_ok fun position hposition => ?_)
  have hlane := Nat.lt_of_lt_of_le
    (blockSlotIndex_lt options.reverseInner hblock (List.mem_range.mp hposition)) hlanes
  dsimp only
  rw [readLane_of_lt vector hlane]
  rfl

theorem settle_unpackBlocks {l : Layout} (options : Options) {order : List (Nat × Nat)}
    (horder : ∀ entry ∈ order, entry.2 < l.blocks) (hlanes : l.innerFull ≤ lanes)
    (vectorAt : Nat × Nat → Vector (Scalar lane) lanes)
    (queue : List (Vector (Scalar lane) lanes)) :
    (unpackBlocks d l options order).settle (order.map vectorAt ++ queue) =
      (.ok (order.flatMap fun entry => vectorBlock d l options entry.2 (vectorAt entry)), queue) := by
  induction order with
  | nil => rfl
  | cons entry rest ih =>
      have hrest := ih fun other hother => horder other (List.mem_cons_of_mem _ hother)
      rw [List.map_cons, List.cons_append, unpackBlocks,
        Transfer.settle_bind_of_ok (settle_unpackBlock options entry.1
          (horder entry List.mem_cons_self) hlanes (vectorAt entry) _),
        Transfer.settle_bind_of_ok hrest]
      rfl

theorem length_flatMap_vectorBlock (l : Layout) (options : Options)
    (vectorAt : Nat → Vector (Scalar lane) lanes) :
    ((List.range l.blocks).flatMap fun c => vectorBlock d l options c (vectorAt c)).length =
      l.innerFull := by
  simp [List.length_flatMap, length_vectorBlock, Layout.innerFull, Nat.mul_comm]

theorem length_blockOrder_flatMap (l : Layout) (options : Options)
    (vectorAt : Nat × Nat → Vector (Scalar lane) lanes) :
    ((blockOrder l).flatMap fun entry => vectorBlock d l options entry.2 (vectorAt entry)).length =
      l.outer * l.innerFull := by
  rw [flatMap_blockOrder, List.length_flatMap]
  simp only [length_flatMap_vectorBlock l options fun c => vectorAt (_, c)]
  simp

theorem getElem?_blockOrder_flatMap {l : Layout} {o c j : Nat} (options : Options)
    (vectorAt : Nat × Nat → Vector (Scalar lane) lanes) (ho : o < l.outer) (hc : c < l.blocks)
    (hj : j < l.inner) :
    ((blockOrder l).flatMap fun entry => vectorBlock d l options entry.2 (vectorAt entry))[
        o * l.innerFull + (c * l.inner + j)]? =
      some (Scalar.cast d
        ((vectorAt (o, c))[Layout.blockSlotIndex c j l.inner options.reverseInner]?.getD 0)) := by
  have hp : c * l.inner + j < l.innerFull := by
    simpa [Layout.blockSlotIndex, Layout.slotIndex] using blockSlotIndex_lt false hc hj
  rw [flatMap_blockOrder, Layout.getElem?_flatMap_range_of_length
      (fun o => length_flatMap_vectorBlock l options fun c => vectorAt (o, c)) ho hp,
    Layout.getElem?_flatMap_range_of_length (fun c => length_vectorBlock l options c _) hc hj]
  simp [vectorBlock, hj]

theorem settle_unpackVectors_blockOrder {shape : List Nat} {options : Options} {l : Layout}
    (hlayout : Layout.ofShape shape options.blocks = .ok l) (hlanes : l.innerFull ≤ lanes)
    {recovered : Tensor d} {vectorAt : Nat × Nat → Vector (Scalar lane) lanes}
    (hshape : recovered.shape = shape)
    (hvalues : recovered.values =
      (blockOrder l).flatMap fun entry => vectorBlock d l options entry.2 (vectorAt entry))
    (queue : List (Vector (Scalar lane) lanes)) :
    (unpackVectors d shape options).settle ((blockOrder l).map vectorAt ++ queue) =
      (.ok recovered, queue) := by
  subst hshape
  unfold unpackVectors
  rw [hlayout, Transfer.settle_bind_of_ok (Transfer.settle_lift _ _),
    if_neg (Nat.not_lt_of_le hlanes), Transfer.settle_bind_of_ok (Transfer.settle_report _ _),
    reserve_of_ofShape hlayout, Transfer.settle_bind_of_ok (Transfer.settle_lift _ _),
    Transfer.settle_bind_of_ok (settle_unpackBlocks options
      (fun _ hentry => snd_lt_of_mem_blockOrder hentry) hlanes vectorAt queue), Transfer.settle_lift]
  exact congrArg (·, queue) (ofValues_eq_ok_iff.mpr ⟨rfl, hvalues⟩)

theorem settle_unpackVectors_of_lt {shape : List Nat} {options : Options} {l : Layout}
    (hlayout : Layout.ofShape shape options.blocks = .ok l) (hlanes : lanes < l.innerFull)
    (queue : List (Vector (Scalar lane) lanes)) :
    (unpackVectors d shape options).settle queue =
      (.error (.shape (.lastTooWide l.innerFull lanes)), queue) := by
  unfold unpackVectors
  rw [hlayout]
  simp [Transfer.settle_bind, hlanes]

end

open scoped Platform.Release

end Bitpack.Packing
