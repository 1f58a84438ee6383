import VectorHeap.Proofs.Atomicity
import VectorHeap.Proofs.Extraction

/-! What a call that stops leaves in the slots of vectors. Whatever stopped it, the slots are as they were,
those past the length too. -/
namespace VectorHeap

namespace Heap

variable {h h' h'' : Heap} {v : VectorId} {s : Sequence}

/-- Vectors may have been marked as incomplete and may have come to peers. Their slots and what native ones
lie in are as they were. -/
structure Maintains (h h' : Heap) : Prop where
  vectors : ∀ v cell, h.vectors.find? v = some cell → ∃ complete peer,
    h'.vectors.find? v = some { cell with complete, peer } ∧
      ∀ i, cell.peer = some i → peer = some i
  peers : ∀ p q, h.peers.find? p = some q → h'.peers.find? p = some q
  buffers : h'.buffers = h.buffers

theorem Conserves.maintains (S : h.Conserves h') : h.Maintains h' where
  vectors v cell found := by
    obtain ⟨peer, found', kept⟩ := S.vectors v cell found
    exact ⟨cell.complete, peer, found', kept⟩
  peers := S.peers
  buffers := S.buffers

namespace Maintains

theorem refl (h : Heap) : h.Maintains h := (Conserves.refl h).maintains

theorem trans (R : h.Maintains h') (R' : h'.Maintains h'') : h.Maintains h'' where
  vectors v cell found := by
    obtain ⟨_, p, found', kept⟩ := R.vectors v cell found
    obtain ⟨complete, p', found'', kept'⟩ := R'.vectors v _ found'
    exact ⟨complete, p', found'', fun i hi => kept' i (kept i hi)⟩
  peers p q found := R'.peers p q (R.peers p q found)
  buffers := R'.buffers.trans R.buffers

theorem forget (h : Heap) (v : VectorId) :
    h.Maintains (h.modifyVector v ({ · with complete := false })) := by
  refine { refl h with vectors := fun w cell found => ?_ }
  by_cases same : v = w
  · subst same
    refine ⟨false, cell.peer, ?_, fun _ => id⟩
    exact (h.vectors.find_modify_self v _).trans (by rw [found]; rfl)
  · exact ⟨cell.complete, cell.peer, (h.vectors.find_modify_ne _ same).trans found, fun _ => id⟩

theorem sequence (I : h.Intact) (R : h.Maintains h') (shows : h.sequence? v = some s) :
    ∃ complete, h'.sequence? v = some { s with complete } := by
  obtain ⟨cell, found, rfl⟩ := sequence_eq_some_iff.mp shows
  obtain ⟨complete, peer, found', kept⟩ := R.vectors v cell found
  refine ⟨complete, sequence_eq_some_iff.mpr ⟨_, found', ?_⟩⟩
  have same := elements_congr (I.vectors v cell found) found kept (fun i q _ hq => R.peers i q hq)
    (fun b _ => by rw [R.buffers])
  exact congrArg (Sequence.mk cell.type · cell.length complete cell.sharing) same

end Maintains
end Heap

namespace Op

variable {α β σ : Type} {h h' : Heap} {v : VectorId}

/-! ### Operations that at most mark -/

/-- From every heap an operation leaves vectors with their slots, whatever becomes of it. -/
structure Maintaining (op : Op α) : Prop where
  maintains : ∀ h, Outcome op h (fun _ h' => h.Maintains h') (fun _ h' => h.Maintains h')

namespace Maintaining

theorem of_sparing {op : Op α} (S : Sparing op) : Maintaining op :=
  ⟨fun h => Outcome.mono (S.spares h) (fun _ _ => (·.maintains)) (fun _ _ => (·.maintains))⟩

theorem of_still {op : Op α} (S : Still op) : Maintaining op := of_sparing (.of_still S)

theorem pure (a : α) : Maintaining (Pure.pure a : Op α) := of_still (.pure a)

theorem bind {x : Op β} {f : β → Op α} (first : Maintaining x) (rest : ∀ b, Maintaining (f b)) :
    Maintaining (x >>= f) := by
  refine ⟨fun h => Outcome.bind (first.maintains h) (fun b h₁ R => ?_)⟩
  exact Outcome.mono ((rest b).maintains h₁) (fun _ _ => R.trans) (fun _ _ => R.trans)

theorem ite {p : Prop} [Decidable p] {x y : Op α} (first : Maintaining x) (second : Maintaining y) :
    Maintaining (if p then x else y) := by
  split
  · exact first
  · exact second

theorem since {x : Op β} {f : β → Op α} {answers : α → Heap → Prop} {g : Heap} (first : Maintaining x)
    (R : h.Maintains g) (rest : ∀ b g₁, h.Maintains g₁ → Outcome (f b) g₁ answers (fun _ h' => h.Maintains h')) :
    Outcome (x >>= f) g answers (fun _ h' => h.Maintains h') :=
  Outcome.bind (Outcome.mono (first.maintains g) (fun _ _ => R.trans) (fun _ _ => R.trans)) rest

end Maintaining

/-! ### Operations that stop -/

/-- All that a write to a slot does at once comes after everything that could stop it. -/
theorem storeAt_aborts (v : VectorId) (cell : VectorCell) (i : Nat) (e : Elem)
    (assigned : Option Handle) : Aborts (storeAt v cell i e assigned) h
      (fun r h' => ∀ s, r = .again s → h.Conserves h') := by
  refine .still_bind (managed_still cell) (fun buffer _ => ?_)
  cases buffer with
  | some b =>
    refine .still_bind (.ofPanic _) (fun b' _ => ?_)
    cases b' with
    | some b' => exact Outcome.of_ok rfl nofun
    | none => exact Heap.Conserves.refl h
  | none =>
    refine .still_bind (nativePeer_still cell) (fun p _ => ?_)
    have written : ∀ width data, Aborts (writeSlots p width i data) h (fun _ _ => True) :=
      fun _ _ => .still_bind (accessed_still ..) (fun _ _ => trivial)
    cases e.object? with
    | none => exact (written ..).settle (fun _ _ _ => ⟨_, _, rfl, nofun⟩)
    | some o =>
      cases assigned with
      | some k =>
        have handed : Aborts (writeHandles p i [(o, k)]) h (fun _ _ => True) :=
          (written 8 _).settle (fun _ _ _ => ⟨_, _, rfl, trivial⟩)
        exact handed.settle (fun _ _ _ => ⟨_, _, rfl, nofun⟩)
      | none =>
        exact (ensureHandle_sparing o).then (fun k h₁ _ => .pure (fun S _ _ => S))

theorem setPass_stops {g : Heap} (R : h.Maintains g) (v : VectorId) (i : Nat) (e : Elem)
    (assigned : Option Handle) : Outcome (setPass v i e assigned) g
      (fun r g' => ∀ s, r = .again s → h.Maintains g') (fun _ g' => h.Maintains g') := by
  have noted : Maintaining (noteMissing v e) :=
    .bind (.of_still (.bind .get (fun _ => .pure _))) (fun _ =>
      .ite ⟨fun h => .forget h v⟩ (.pure _))
  refine (Maintaining.of_still (.vector v)).since R (fun cell g₁ R₁ => ?_)
  refine (Maintaining.of_still (checkIndex_still cell i)).since R₁ (fun _ g₂ R₂ => ?_)
  refine noted.since R₂ (fun _ g₃ R₃ => Outcome.mono (storeAt_aborts v cell i e assigned) ?_ ?_)
  · exact fun _ _ conserved s again => R₃.trans (conserved s again).maintains
  · exact fun _ _ conserved => R₃.trans conserved.maintains

theorem setElem_stops (v : VectorId) (i : Nat) (e : Elem) (h : Heap) :
    Outcome (setElem v i e) h (fun _ _ => True) (fun _ h' => h.Maintains h') := by
  have passes : ∀ n assigned g, h.Maintains g →
      Outcome (retry (setPass v i e) n assigned) g (fun _ _ => True) (fun _ h' => h.Maintains h') := by
    intro n
    induction n with
    | zero => exact fun _ _ R => R
    | succ n ih =>
      intro assigned g R
      refine (setPass_stops R v i e assigned).bind (fun r g' again => ?_)
      cases r with
      | done a => trivial
      | again s => exact ih s g' (again s rfl)
  refine (Maintaining.of_still (.vector v)).since (.refl h) (fun cell g R => ?_)
  refine (Maintaining.of_still (checkType_still ..)).since R (fun _ g R => ?_)
  split
  · exact R
  · exact passes setPasses none g R

theorem resizeBuffer_sparing (c : ContextId) (b : Buffer) (n : Nat) : Sparing (resizeBuffer c b n) := by
  have lists : ∀ n, Sparing (emptyLists c n) := by
    intro n
    induction n with
    | zero => exact .pure _
    | succ n ih => exact (emptyList_sparing c).bind (fun _ => ih.bind (fun _ => .pure _))
  have filled : Sparing (fillers c b.type (n - b.capacity)) := by
    unfold fillers
    split
    · exact .pure _
    · exact .ite (.pure _) (.ite ((naString_sparing c).bind (fun _ => .pure _))
        ((lists _).bind (fun _ => .pure _)))
  refine Sparing.bind (.of_still (.ofPanic _)) (fun _ => filled.bind (fun new => ?_))
  cases b.refill? n new with
  | some b' => exact .pure b'
  | none => exact .of_still (.throw _)

theorem setCapacity_stops (v : VectorId) (n : Nat) (h : Heap) :
    Aborts (setCapacity v n) h (fun _ _ => True) := by
  refine Aborts.retry (fun _ => True) (fun _ _ => trivial) (fun made g _ => ?_) _ _ trivial
  cases found : g.vectors.find? v with
  | none =>
    exact Outcome.of_error (bind_of_error (by rw [vector_run, found]; rfl)) (.refl g)
  | some cell =>
    cases managed : cell.buffer with
    | none => exact capacityPass_aborts found managed n made
    | some b =>
      unfold capacityPass
      rw [Aborts, Outcome, vector_bind found, managed]
      refine Aborts.guard (fun _ => (resizeBuffer_sparing cell.context b n).then (fun b' g₁ _ => ?_))
      refine Outcome.of_ok rfl (fun kept _ again => ?_)
      cases again

theorem setLength_stops {cell : VectorCell} (I : h.Intact) (found : h.vectors.find? v = some cell)
    (n : Nat) : Outcome (setLength v n) h (fun _ _ => True) (fun _ h' => h' = h) := by
  by_cases fits : n ≤ cell.capacity
  · exact Outcome.of_ok (setLength_run I found fits) trivial
  · refine Outcome.of_error (f := .error (.lengthExceedsCapacity n cell.capacity)) ?_ rfl
    unfold setLength
    rw [vector_bind found, if_pos (Nat.lt_of_not_le fits)]
    rfl

end Op

namespace Call

open Op

variable {h h' : Heap} {call : Call} {v : VectorId}

/-- A call that stops, as far as it could touch the vector. -/
theorem maintains_of_stop {f : Fault} (I : h.Intact) (there : h.has (.vector v) = true)
    (plain : call.marks = false) (touched : call.touches h v) (run : call.op h = .error f h') :
    h.Maintains h' := by
  cases call with
  | set w i e => exact (setElem_stops w i e h).error run
  | setLength w n =>
    cases touched
    obtain ⟨cell, found⟩ := Heap.has_vector_iff.mp there
    rw [(setLength_stops I found n).error run]
    exact .refl h
  | setCapacity w n => exact ((setCapacity_stops w n h).error run).maintains
  | promote w =>
    have P : Aborts (discard (Op.promote w)) h (fun _ _ => True) := Outcome.map (promote_aborts w)
    exact (P.error run).maintains
  | adopt c type buffer length => exact absurd (there.symm.trans touched) (by decide)
  | _ => first | exact touched.elim | cases plain

end Call
end VectorHeap
