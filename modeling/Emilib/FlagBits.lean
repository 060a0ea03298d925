/-!
# Single bits of a flag word

A flag word is tested, raised and lowered through masks, as C code does with
`&`, `|=` and `&= ~`. A raised or lowered mask leaves the tests of masks it has
no bit in common with unchanged.
-/

namespace Emilib.FlagBits

variable {width : Nat}

/-- `flag & mask`, as a condition. -/
def Holds (flag mask : BitVec width) : Prop := flag &&& mask ≠ 0

instance (flag mask : BitVec width) : Decidable (Holds flag mask) :=
  inferInstanceAs (Decidable (_ ≠ _))

/-- `flag |= mask`. -/
def raise (flag mask : BitVec width) : BitVec width := flag ||| mask

/-- `flag &= ~mask`. -/
def lower (flag mask : BitVec width) : BitVec width := flag &&& ~~~mask

/-- A nonzero mask holds once it is raised. -/
theorem holds_raise (flag mask : BitVec width) (nonzero : mask ≠ 0) :
    Holds (raise flag mask) mask := by
  intro cleared
  apply nonzero
  have absorbed : (flag ||| mask) &&& mask = mask := by
    ext index
    simp only [BitVec.getElem_and, BitVec.getElem_or]
    cases mask[index] <;> simp
  rw [← absorbed]
  exact cleared

/-- A mask does not hold once it is lowered. -/
theorem not_holds_lower (flag mask : BitVec width) : ¬ Holds (lower flag mask) mask := by
  intro held
  apply held
  ext index
  simp only [lower, BitVec.getElem_and, BitVec.getElem_not]
  cases mask[index] <;> simp

/-- Raising a mask does not change the test of a mask apart from it. -/
theorem holds_raise_apart (flag mask other : BitVec width) (apart : mask &&& other = 0) :
    Holds (raise flag mask) other ↔ Holds flag other := by
  have distributed : raise flag mask &&& other = flag &&& other := by
    ext index inside
    have separate : (mask &&& other)[index] = (0 : BitVec width)[index] := by rw [apart]
    simp only [BitVec.getElem_and, raise, BitVec.getElem_or] at separate ⊢
    cases present : other[index] <;> simp_all
  rw [Holds, distributed]
  exact Iff.rfl

/-- Lowering a mask does not change the test of a mask apart from it. -/
theorem holds_lower_apart (flag mask other : BitVec width) (apart : mask &&& other = 0) :
    Holds (lower flag mask) other ↔ Holds flag other := by
  have kept : lower flag mask &&& other = flag &&& other := by
    ext index inside
    have separate : (mask &&& other)[index] = (0 : BitVec width)[index] := by rw [apart]
    simp only [BitVec.getElem_and, lower, BitVec.getElem_not] at separate ⊢
    cases present : other[index] <;> simp_all
  rw [Holds, kept]
  exact Iff.rfl

/-- A mask of one bit tests that bit. -/
theorem holds_twoPow (flag : BitVec width) (bit : Nat) (inside : bit < width) :
    Holds flag (BitVec.twoPow width bit) ↔ flag.getLsbD bit = true := by
  rw [Holds, BitVec.and_twoPow]
  cases set : flag.getLsbD bit with
  | false => simp
  | true =>
    rw [if_pos rfl]
    apply iff_of_true ?_ rfl
    intro zero
    have own := congrArg (fun word => word.getLsbD bit) zero
    simp [inside] at own

end Emilib.FlagBits
