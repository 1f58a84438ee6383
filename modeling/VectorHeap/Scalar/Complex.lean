import VectorHeap.Text.Decimal

/-! Complex numbers: two doubles, missing iff the real part is. -/
namespace VectorHeap

structure Complex where
  re : Double
  im : Double
deriving DecidableEq, Inhabited

namespace Complex

def zero : Complex := ⟨.zero, .zero⟩

def na : Complex := ⟨.na, .zero⟩

def isNA (z : Complex) : Bool := z.re.isNA

def numEq (z w : Complex) : Bool := z.re.numEq w.re && z.im.numEq w.im

/-- A minus joins the parts iff the imaginary part is numerically negative, so a negative zero keeps
its own sign after the plus. -/
def display (z : Complex) : String :=
  if z.isNA then "NA"
  else if z.im.isNegative then Decimal.ofDouble z.re ++ "-" ++ Decimal.ofDouble z.im.neg ++ "i"
  else Decimal.ofDouble z.re ++ "+" ++ Decimal.ofDouble z.im ++ "i"

end Complex
end VectorHeap
