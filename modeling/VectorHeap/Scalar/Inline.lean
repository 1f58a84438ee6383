import VectorHeap.ElemType
import VectorHeap.Scalar.Complex
import VectorHeap.Scalar.Logical

/-! The values of the inline element types and their missing values. -/
namespace VectorHeap.InlineType

abbrev Value : InlineType → Type
  | int => Int32
  | double => Double
  | logical => Logical
  | complex => Complex
  | raw => UInt8

/-- The missing value; raws have none and fall back to zero. -/
def na : (t : InlineType) → t.Value
  | int => intNA
  | double => Double.na
  | logical => Logical.na
  | complex => Complex.na
  | raw => (0 : UInt8)

def isNA : (t : InlineType) → t.Value → Bool
  | int, v => decide ((v : Int32) = intNA)
  | double, v => Double.isNA v
  | logical, v => Logical.isNA v
  | complex, v => Complex.isNA v
  | raw, _ => false

theorem isNA_na (t : InlineType) : t.isNA t.na = decide (t ≠ raw) := by cases t <;> decide

end VectorHeap.InlineType
