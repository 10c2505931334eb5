import Bitpack.Error
import Bitpack.Platform

/-!
Sizes in 64 bits. Some products are refused where they do not fit; the others stop the program or
wrap around, as it was built.
-/
namespace Bitpack.Size

def limit : Nat :=
  2 ^ 64

/-- No block of memory has as many bytes as this. -/
def memoryLimit : Nat :=
  2 ^ 63

def checkedMul (a b : Nat) : Option Nat :=
  if a * b < limit then some (a * b) else none

def mul [Platform] (a b : Nat) : Except Error Nat :=
  match checkedMul a b with
  | some n => .ok n
  | none =>
    if Platform.overflowChecks then .error (.size .overflow)
    else .ok (a * b % limit)

def product [Platform] (dims : List Nat) : Except Error Nat :=
  dims.foldlM mul 1

def reserve (count bytes : Nat) : Except Error Unit :=
  if count * bytes < memoryLimit then .ok ()
  else .error (.size .capacity)

/-- Every product on the way from the first axis fits. -/
def Fits (dims : List Nat) : Prop :=
  ∀ k ≤ dims.length, (dims.take k).prod < limit

instance : DecidablePred Fits :=
  fun dims => inferInstanceAs (Decidable (∀ k ≤ dims.length, (dims.take k).prod < limit))

end Bitpack.Size
