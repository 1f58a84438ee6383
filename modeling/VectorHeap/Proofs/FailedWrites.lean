import VectorHeap.Proofs.DataAddress

/-! Writes that fail with an error. All checks but one come before the first effect: whether an element
still has a context is asked when its handle is needed, and the completeness flag is gone by then. -/
namespace VectorHeap

namespace Heap

variable {h : Heap} {v : VectorId} {cell : VectorCell} {e : Elem} {i : Nat}

/-- An orphaned element is to be written into a native vector, and nothing else is in the way. -/
structure StopsLate (h : Heap) (cell : VectorCell) (i : Nat) (e : Elem) : Prop where
  typed : e.type = cell.type
  unshared : cell.sharing.isShared = false
  inside : i < cell.length
  native : cell.buffer = none
  orphaned : ∃ o, e.object? = some o ∧ Op.Orphaned h o

def uncertain (h : Heap) (v : VectorId) : Heap :=
  h.modifyVector v (fun cell => { cell with complete := false })

theorem noted_eq (h : Heap) (v : VectorId) (e : Elem) :
    h.noted v e = if h.isNA e then h.uncertain v else h := rfl

end Heap

namespace Op

variable {h h' : Heap} {v : VectorId} {cell : VectorCell} {e : Elem} {i : Nat} {err : Error}

theorem ensureHandle_orphaned {o : Object} (orphaned : Orphaned h o) :
    ensureHandle o h = .error (.error .contextDropped) h := by
  cases o with
  | vector v => exact orphaned.elim
  | string s =>
    obtain ⟨cell, found, gone⟩ := orphaned
    have stopped : ensureStringPeer s h = .error (.error .contextDropped) h := by
      unfold ensureStringPeer
      rw [string_bind found, get_bind]
      change (if h.has (.context cell.context) = true then _ else _ : Op PeerId) h = _
      rw [gone]
      rfl
    exact bind_of_error stopped

theorem setElem_stopsLate (I : h.Intact) (found : h.vectors.find? v = some cell)
    (late : h.StopsLate cell i e) :
    setElem v i e h = .error (.error .contextDropped) (h.noted v e) := by
  obtain ⟨o, object, orphaned⟩ := late.orphaned
  have orphaned' : Orphaned (h.noted v e) o := by
    cases o with
    | vector v => exact orphaned
    | string s =>
      obtain ⟨string, there, gone⟩ := orphaned
      refine ⟨string, ?_, ?_⟩
      · rw [(h.noted_rest v e).2.2.2]
        exact there
      · rw [Heap.has, (h.noted_rest v e).1]
        exact gone
  rw [setElem_passes found late.typed late.unshared]
  have pass := setPass_assign I found late.native late.inside object
  exact bind_of_error (pass.trans (bind_of_error (ensureHandle_orphaned orphaned')))

/-- The only error that comes late is that of an orphaned element. -/
theorem setElem_error (I : h.Intact) (found : h.vectors.find? v = some cell)
    (alive : ∀ o, e.object? = some o → h.isAlive o = true)
    (stopped : setElem v i e h = .error (.error err) h') :
    h' = h ∨ h.StopsLate cell i e ∧ err = .contextDropped ∧ h' = h.noted v e := by
  by_cases typed : e.type = cell.type
  · cases shared : cell.sharing.isShared with
    | true =>
      have asserted := setElem_shared found typed shared i
      rw [stopped] at asserted
      cases asserted
    | false =>
      have passes := setElem_passes (i := i) found typed shared
      by_cases inside : i < cell.length
      · rcases (setElem_performs I found alive i).error stopped with
          ⟨_, ⟨same, _⟩ | ⟨dropped, orphaned, _⟩⟩ | ⟨⟨_, taken⟩, _⟩
        · exact .inl same
        · cases dropped
          cases managed : cell.buffer with
          | some b =>
            -- a managed vector takes the element without asking for its handle
            obtain ⟨h₁, run, _⟩ := setPass_managed I found managed inside ⟨typed, alive⟩ none
            have answered := passes.trans (bind_of_ok run)
            rw [stopped] at answered
            cases answered
          | none =>
            have late : h.StopsLate cell i e := ⟨typed, shared, inside, managed, orphaned⟩
            have run := setElem_stopsLate I found late
            rw [stopped] at run
            cases run
            exact .inr ⟨late, rfl, rfl⟩
        · cases taken
      · have run := passes.trans (bind_of_error (setPass_beyond found inside none))
        rw [stopped] at run
        cases run
        exact .inl rfl
  · have refused := setElem_mistyped found typed i
    rw [stopped] at refused
    cases refused
    exact .inl rfl

end Op

namespace Heap

open Op

variable {h : Heap} {v : VectorId} {cell : VectorCell} {e : Elem} {i : Nat} {log : List Entry}

theorem stopsLate_reached : ∃ log h cell, Logged {} log h ∧ h.vectors.find? ⟨0⟩ = some cell ∧
    cell.length = 1 ∧ cell.complete = true ∧ h.isAlive (.string ⟨1⟩) = true ∧
    h.isNA (.str ⟨1⟩) = true ∧ h.StopsLate cell 0 (.str ⟨1⟩) := by
  have run₁ : Logged {} [⟨{}, .newContext .default, true⟩] _ :=
    Logged.start.call (.newContext .default) ⟨by decide, by simp⟩ (.answer rfl)
  have run₂ := run₁.call (.newString ⟨0⟩ "a") ⟨by decide, by simp⟩ (.answer rfl)
  have run₃ := run₂.call (.newVector ⟨0⟩ .str [.str ⟨0⟩]) ⟨by decide, by simp⟩ (.answer rfl)
  have run₄ := run₃.call (.promote ⟨0⟩) ⟨by decide, by simp⟩ (.answer (run_of_ok rfl))
  have run₅ := run₄.call (.newContext .default) ⟨by decide, by simp⟩ (.answer (run_of_ok rfl))
  have run₆ := run₅.call (.naString ⟨1⟩) ⟨by decide, by simp⟩ (.answer (run_of_ok rfl))
  have run₇ := run₆.tidy (.bury [.vector ⟨0⟩, .string ⟨1⟩] (.context ⟨1⟩) (by decide))
  exact ⟨_, _, _, run₇, rfl, rfl, by decide, by decide, by decide,
    ⟨rfl, by decide, by decide, by decide, .string ⟨1⟩, rfl, _, rfl, by decide⟩⟩

/-- In every reachable state: a write that returns an error leaves the whole heap as it was, but for the
completeness flag of the vector when the element is missing and has outlived its context, the vector is
native, and type, sharing and index are in order. Then the flag is gone. -/
theorem failed_write_keeps {supply : Nat → Nat → Option Address} (run : Logged { supply } log h)
    (found : h.vectors.find? v = some cell) (alive : ∀ o, e.object? = some o → h.isAlive o = true)
    (i : Nat) :
    (∀ err h', setElem v i e h = .error (.error err) h' → h' = h ∨
      h' = h.uncertain v ∧ h.StopsLate cell i e ∧ h.isNA e = true ∧ err = .contextDropped) ∧
    (h.StopsLate cell i e → h.isNA e = true →
      setElem v i e h = .error (.error .contextDropped) (h.uncertain v)) := by
  have I := run.intact (intact_of_supply supply)
  constructor
  · intro err h' stopped
    rcases setElem_error I found alive stopped with same | ⟨late, dropped, noted⟩
    · exact .inl same
    · rw [noted_eq] at noted
      by_cases missing : h.isNA e = true
      · rw [if_pos missing] at noted
        exact .inr ⟨noted, late, missing, dropped⟩
      · rw [if_neg missing] at noted
        exact .inl noted
  · intro late missing
    have run := setElem_stopsLate I found late
    rw [noted_eq, if_pos missing] at run
    exact run

/-- Within the vector the flag is lost, and beyond its end nothing is. -/
theorem failed_write_keeps_rest :
    ∃ log h cell, Logged {} log h ∧ h.vectors.find? ⟨0⟩ = some cell ∧
      setElem ⟨0⟩ 0 (.str ⟨1⟩) h = .error (.error .contextDropped) (h.uncertain ⟨0⟩) ∧
      ∀ err h', setElem ⟨0⟩ 7 (.str ⟨1⟩) h = .error (.error err) h' → h' = h := by
  obtain ⟨log, h, cell, run, found, length, _, alive, missing, late⟩ := stopsLate_reached
  have held : ∀ o, (Elem.str ⟨1⟩).object? = some o → h.isAlive o = true := by
    rintro o ⟨⟩
    exact alive
  refine ⟨log, h, cell, run, found, (failed_write_keeps run found held 0).2 late missing, ?_⟩
  intro err h' stopped
  rcases (failed_write_keeps run found held 7).1 err h' stopped with same | ⟨_, beyond, _⟩
  · exact same
  · have inside := beyond.inside
    omega

/-- A write that fails takes the flag with it. -/
theorem failed_write_forgets :
    ∃ log h cell h' cell', Logged {} log h ∧ h.vectors.find? ⟨0⟩ = some cell ∧
      h.isAlive (.string ⟨1⟩) = true ∧
      setElem ⟨0⟩ 0 (.str ⟨1⟩) h = .error (.error .contextDropped) h' ∧
      h'.vectors.find? ⟨0⟩ = some cell' ∧ cell.complete = true ∧ cell'.complete = false := by
  obtain ⟨log, h, cell, run, found, _, complete, alive, missing, late⟩ := stopsLate_reached
  have stopped := setElem_stopsLate (run.intact (intact_of_supply _)) found late
  refine ⟨log, h, cell, _, _, run, found, alive, stopped, find_noted found _, complete, ?_⟩
  rw [missing, complete]
  rfl

end Heap
end VectorHeap
