import Bitpack.Scalar.Basic
import Bitpack.Size

/-!
Tensors: a shape of at least one axis and as many values as it holds, the last axis fastest. All its
sizes fit, and the values are in memory.
-/
namespace Bitpack

structure Tensor (d : Dtype) where
  shape : List Nat
  values : List (Scalar d)
  shape_ne_nil : shape ≠ []
  length_values : values.length = shape.prod
  fits : Size.Fits shape
  bytes_lt : values.length * d.bytes < Size.memoryLimit
  deriving DecidableEq, Repr

namespace Tensor

@[ext] theorem ext {d : Dtype} {t u : Tensor d} (hshape : t.shape = u.shape)
    (hvalues : t.values = u.values) : t = u := by
  cases t
  cases u
  cases hshape
  cases hvalues
  rfl

def ofValues [Platform] {d : Dtype} (shape : List Nat) (values : List (Scalar d)) :
    Except Error (Tensor d) :=
  if hs : shape = [] then .error (.shape .noDimension)
  else do
    let count ← Size.product shape
    if count ≠ values.length then .error (.shape (.count shape count values.length))
    else if h : values.length = shape.prod ∧ Size.Fits shape ∧
        values.length * d.bytes < Size.memoryLimit then
      .ok ⟨shape, values, hs, h.1, h.2.1, h.2.2⟩
    else .error (.size .wrapped)

def size {d : Dtype} (t : Tensor d) : Nat :=
  t.values.length

def rows {α : Type} (n : Nat) : Nat → List α → List (List α)
  | 0, _ => []
  | count + 1, values => values.take n :: rows n count (values.drop n)

end Tensor

end Bitpack
