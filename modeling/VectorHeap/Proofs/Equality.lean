import VectorHeap.Heap.Inspection
import VectorHeap.Proofs.ReadPaths

/-! Equality of elements. It is symmetric and transitive, and an element equals itself unless it is a
complex number with a NaN among its parts. -/
namespace VectorHeap

namespace Double

/-- The two zeros are one. -/
def merged (x : Double) : Double := if x.magnitude = 0 then zero else x

theorem merged_eq_iff (x y : Double) :
    x.merged = y.merged ↔ x = y ∨ (x.magnitude = 0 ∧ y.magnitude = 0) := by
  have none : zero.magnitude = 0 := by decide
  unfold merged
  by_cases hx : x.magnitude = 0
  · by_cases hy : y.magnitude = 0
    · simp [hx, hy]
    · rw [if_pos hx, if_neg hy]
      exact ⟨fun same => absurd (same ▸ none) hy, fun either => either.elim
        (fun same => absurd (same ▸ hx) hy) (fun both => absurd both.2 hy)⟩
  · by_cases hy : y.magnitude = 0
    · rw [if_neg hx, if_pos hy]
      exact ⟨fun same => absurd (same ▸ none) hx, fun either => either.elim
        (fun same => absurd (same ▸ hy) hx) (fun both => absurd both.1 hx)⟩
    · simp [hx, hy]

theorem isNaN_of_magnitude {x : Double} (none : x.magnitude = 0) : x.isNaN = false := by
  rw [isNaN, none]
  decide

theorem numEq_iff (x y : Double) :
    x.numEq y = true ↔ x.isNaN = false ∧ y.isNaN = false ∧ x.merged = y.merged := by
  have bits : x.bits = y.bits ↔ x = y := ⟨fun same => by cases x; cases y; cases same; rfl, congrArg _⟩
  rw [merged_eq_iff, numEq]
  simp only [Bool.and_eq_true, Bool.not_eq_true', Bool.or_eq_true, beq_iff_eq, bits, and_assoc]

/-- A double is compared bit for bit first, and so it equals itself. -/
theorem beq_or_numEq_iff (x y : Double) : (x == y || x.numEq y) = true ↔ x.merged = y.merged := by
  rw [Bool.or_eq_true, beq_iff_eq, numEq_iff]
  refine ⟨fun either => either.elim (congrArg merged) (fun same => same.2.2), fun same => ?_⟩
  rcases (merged_eq_iff x y).mp same with equal | ⟨hx, hy⟩
  · exact .inl equal
  · exact .inr ⟨isNaN_of_magnitude hx, isNaN_of_magnitude hy, same⟩

end Double

/-- What an element is compared by. -/
inductive ElemKey
  | int (v : Int32)
  | double (x : Double)
  | logical (v : Logical)
  | complex (re im : Double)
  | raw (v : UInt8)
  | str (text : String) (isNA : Bool)
  | list (v : VectorId)

namespace Elem

/-- A complex number with a NaN among its parts. -/
def isUnordered : Elem → Bool
  | complex z => z.re.isNaN || z.im.isNaN
  | _ => false

end Elem

namespace Heap

variable {h : Heap} {a b c : Elem}

def elemKey (h : Heap) : Elem → ElemKey
  | .int v => .int v
  | .double x => .double x.merged
  | .logical v => .logical v
  | .complex z => .complex z.re.merged z.im.merged
  | .raw v => .raw v
  | .str s => .str (h.text s) (h.stringIsNA s)
  | .list v => .list v

theorem elemEq_iff (h : Heap) (a b : Elem) : h.elemEq a b = true ↔
    a.isUnordered = false ∧ b.isUnordered = false ∧ h.elemKey a = h.elemKey b := by
  cases a <;> cases b <;> simp only [elemEq, Elem.isUnordered, elemKey, ElemKey.int.injEq,
    ElemKey.double.injEq, ElemKey.logical.injEq, ElemKey.complex.injEq, ElemKey.raw.injEq,
    ElemKey.str.injEq, ElemKey.list.injEq, reduceCtorEq, Bool.false_eq_true, and_false, true_and,
    beq_iff_eq, Bool.and_eq_true, Double.beq_or_numEq_iff]
  case complex.complex z w =>
    rw [Complex.numEq, Bool.and_eq_true, Double.numEq_iff, Double.numEq_iff, Bool.or_eq_false_iff,
      Bool.or_eq_false_iff]
    constructor
    · rintro ⟨⟨hz, hw, re⟩, hz', hw', im⟩
      exact ⟨⟨hz, hz'⟩, ⟨hw, hw'⟩, re, im⟩
    · rintro ⟨⟨hz, hz'⟩, ⟨hw, hw'⟩, re, im⟩
      exact ⟨⟨hz, hw, re⟩, hz', hw', im⟩

theorem elemEq_self (h : Heap) (a : Elem) : h.elemEq a a = true ↔ a.isUnordered = false := by
  rw [elemEq_iff]
  exact ⟨fun same => same.1, fun ordered => ⟨ordered, ordered, rfl⟩⟩

theorem elemEq_symm (same : h.elemEq a b = true) : h.elemEq b a = true := by
  obtain ⟨left, right, view⟩ := (elemEq_iff h a b).mp same
  exact (elemEq_iff h b a).mpr ⟨right, left, view.symm⟩

theorem elemEq_trans (first : h.elemEq a b = true) (second : h.elemEq b c = true) :
    h.elemEq a c = true := by
  obtain ⟨left, _, view⟩ := (elemEq_iff h a b).mp first
  obtain ⟨_, right, view'⟩ := (elemEq_iff h b c).mp second
  exact (elemEq_iff h a c).mpr ⟨left, right, view.trans view'⟩

theorem isEqv_self (h : Heap) (es : List Elem) :
    es.isEqv es h.elemEq = true ↔ ∀ e ∈ es, e.isUnordered = false := by
  induction es with
  | nil => simp [List.isEqv]
  | cons e es ih => rw [List.isEqv, Bool.and_eq_true, ih, elemEq_self, List.forall_mem_cons]

theorem found_of_toList {v : VectorId} {es : List Elem} (all : Op.toList v h = .ok es h) :
    ∃ cell, h.vectors.find? v = some cell := by
  cases found : h.vectors.find? v with
  | none =>
    have stopped : Op.vector v h = .error .dead h := by
      rw [Op.vector_run, found]
      rfl
    rw [Op.toList, Op.bind_of_error stopped] at all
    cases all
  | some cell => exact ⟨cell, rfl⟩

/-- Equality of elements is symmetric and transitive. An element equals itself just if it is no complex
number with a NaN among its parts, and after any run in which no peer of a live object was released by
hand the elements that were read from a vector equal those of its copy just if none of them is. -/
theorem elemEq_laws (h : Heap) :
    (∀ a, h.elemEq a a = true ↔ a.isUnordered = false) ∧
    (∀ a b, h.elemEq a b = true → h.elemEq b a = true) ∧
    (∀ a b c, h.elemEq a b = true → h.elemEq b c = true → h.elemEq a c = true) ∧
    ∀ supply log, Logged { supply } log h → ∀ v es, Op.toList v h = .ok es h →
      ∃ d h', Op.copy v h = .ok d h' ∧ Op.toList d h' = .ok es h' ∧
        (es.isEqv es h'.elemEq = true ↔ ∀ e ∈ es, e.isUnordered = false) := by
  refine ⟨h.elemEq_self, fun a b => elemEq_symm, fun a b c => elemEq_trans, ?_⟩
  intro supply log run v es all
  obtain ⟨cell, found⟩ := found_of_toList all
  obtain ⟨_, _, d, h', copied, again, _⟩ :=
    (Op.toList_agrees (run.intact (intact_of_supply supply)) found).ok all
  exact ⟨d, h', copied, again, h'.isEqv_self es⟩

/-- Missing doubles equal themselves, missing complex numbers do not. -/
theorem missing_complex_unequal :
    ({} : Heap).elemEq (.complex .na) (.complex .na) = false ∧
      ({} : Heap).elemEq (.double .na) (.double .na) = true := by decide

/-- The elements of a vector with a missing complex number do not equal those of its copy. -/
theorem elemEq_laws_of_missing :
    ∃ h d h' es, Op.toList ⟨0⟩ h = .ok es h ∧ es = [.complex .zero, .complex .na] ∧
      Op.copy ⟨0⟩ h = .ok d h' ∧ Op.toList d h' = .ok es h' ∧ es.isEqv es h'.elemEq = false := by
  let h₁ : Heap := (Call.newContext .default).op.after {}
  let h : Heap := (Call.newVector ⟨0⟩ .complex [.complex .zero, .complex .na]).op.after h₁
  have run₁ : Logged {} [⟨{}, .newContext .default, true⟩] h₁ :=
    Logged.start.call (.newContext .default) ⟨by decide, by simp⟩ (.answer rfl)
  have ended : h₁.Ended (.newVector ⟨0⟩ .complex [.complex .zero, .complex .na]) h true :=
    .answer (Op.run_of_ok (by decide +kernel))
  have run := run₁.call _ ⟨by decide +kernel, by simp⟩ ended
  have all : Op.toList ⟨0⟩ h = .ok [.complex .zero, .complex .na] h := rfl
  obtain ⟨_, _, _, laws⟩ := elemEq_laws h
  obtain ⟨d, h', copied, again, equal⟩ := laws _ _ run ⟨0⟩ _ all
  refine ⟨h, d, h', _, all, rfl, copied, again, Bool.eq_false_iff.mpr (fun same => ?_)⟩
  exact absurd (equal.mp same (.complex .na) (by simp)) (by decide)

end Heap
end VectorHeap
