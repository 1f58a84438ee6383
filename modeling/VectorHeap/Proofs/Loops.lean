import VectorHeap.Proofs.Atomicity

/-! How often the passes of an operation are made. Between two passes handles are assigned and fillers
are made, and that leaves what the next pass compares: from any heap, whichever elements the vector has,
itself among them, the loop of an operation ends after the passes that it was given. -/
namespace VectorHeap
namespace Op

variable {σ α β : Type} {h : Heap} {v : VectorId} {cell : VectorCell} {pass : σ → Op (Pass σ α)}
  {s : σ} {r : EStateM.Result Fault Heap α}

/-- The loop without a limit: from its state, so many passes come to an end. The last one is done or
stops, the others ask for another one. -/
inductive Loops (pass : σ → Op (Pass σ α)) :
    σ → Heap → Nat → EStateM.Result Fault Heap α → Prop
  | done {s h a h'} (run : pass s h = .ok (.done a) h') : Loops pass s h 1 (.ok a h')
  | stop {s h f h'} (run : pass s h = .error f h') : Loops pass s h 1 (.error f h')
  | again {s h s' h₁ n r} (run : pass s h = .ok (.again s') h₁) (rest : Loops pass s' h₁ n r) :
    Loops pass s h (n + 1) r

theorem Loops.retry {n : Nat} (P : Loops pass s h n r) {limit : Nat} (enough : n ≤ limit) :
    retry pass limit s h = r := by
  induction P generalizing limit with
  | done run =>
    cases limit with
    | zero => omega
    | succ limit => exact bind_of_ok run
  | stop run =>
    cases limit with
    | zero => omega
    | succ limit => exact bind_of_error run
  | again run _ ih =>
    cases limit with
    | zero => omega
    | succ limit => exact (bind_of_ok run).trans (ih (Nat.le_of_succ_le_succ enough))

theorem Loops.unique {n n' : Nat} {r' : EStateM.Result Fault Heap α} (P : Loops pass s h n r)
    (P' : Loops pass s h n' r') : n = n' ∧ r = r' := by
  induction P generalizing n' r' with
  | done run =>
    cases P' with
    | done run' => cases run.symm.trans run'; exact ⟨rfl, rfl⟩
    | stop run' => cases run.symm.trans run'
    | again run' => cases run.symm.trans run'
  | stop run =>
    cases P' with
    | done run' => cases run.symm.trans run'
    | stop run' => cases run.symm.trans run'; exact ⟨rfl, rfl⟩
    | again run' => cases run.symm.trans run'
  | again run _ ih =>
    cases P' with
    | done run' => cases run.symm.trans run'
    | stop run' => cases run.symm.trans run'
    | again run' rest =>
      cases run.symm.trans run'
      exact ⟨congrArg (· + 1) (ih rest).1, (ih rest).2⟩

/-! ### Asking for another pass -/

/-- If a pass asks for another one, then from a state and a heap of which this holds. -/
def Asks (op : Op (Pass σ α)) (h : Heap) (next : σ → Heap → Prop) : Prop :=
  Outcome op h (fun x h' => ∀ s', x = .again s' → next s' h') (fun _ _ => True)

namespace Asks

variable {next : σ → Heap → Prop}

theorem mono {next' : σ → Heap → Prop} {op : Op (Pass σ α)} (A : Asks op h next)
    (weaker : ∀ s' h', next s' h' → next' s' h') : Asks op h next' :=
  Outcome.mono A (fun _ h' asked s' again => weaker s' h' (asked s' again)) (fun _ _ => id)

theorem after {x : Op β} {f : β → Op (Pass σ α)}
    (rest : ∀ b h', x h = .ok b h' → Asks (f b) h' next) : Asks (x >>= f) h next :=
  Outcome.bind_run (fun _ _ _ => trivial) rest

theorem done (a : α) : Asks (pure (.done a) : Op (Pass σ α)) h next := nofun

theorem again {s' : σ} (asked : next s' h) : Asks (pure (.again s') : Op (Pass σ α)) h next := by
  rintro _ ⟨⟩
  exact asked

theorem guard {b : Prop} [Decidable b] {f : Fault} {x : β → Op (Pass σ α)} {y : Op (Pass σ α)}
    (rest : ¬ b → Asks y h next) : Asks (if b then MonadExcept.throw f >>= x else y) h next := by
  by_cases stop : b
  · rw [if_pos stop]
    trivial
  · rw [if_neg stop]
    exact rest stop

theorem once (first : Asks (pass s) h (fun _ _ => False)) {limit : Nat} (some : 0 < limit) :
    Loops pass s h 1 (retry pass limit s h) := by
  have one : ∃ r, Loops pass s h 1 r := by
    cases run : pass s h with
    | ok x h' =>
      cases x with
      | done a => exact ⟨_, .done run⟩
      | again s' => exact (Outcome.ok first run s' rfl).elim
    | error f h' => exact ⟨_, .stop run⟩
  obtain ⟨r, P⟩ := one
  exact P.retry some ▸ P

/-- If the second pass does not ask for another one the loop is over after two. -/
theorem twice (first : Asks (pass s) h (fun s' h₁ => Asks (pass s') h₁ (fun _ _ => False)))
    {limit : Nat} (two : 2 ≤ limit) : ∃ n ≤ 2, Loops pass s h n (retry pass limit s h) := by
  have ended : ∃ n ≤ 2, ∃ r, Loops pass s h n r := by
    cases run : pass s h with
    | ok x h₁ =>
      cases x with
      | done a => exact ⟨1, by decide, _, .done run⟩
      | again s' =>
        exact ⟨2, Nat.le_refl 2, _, .again run ((Outcome.ok first run s' rfl).once Nat.one_pos)⟩
    | error f h₁ => exact ⟨1, by decide, _, .stop run⟩
  obtain ⟨n, most, r, P⟩ := ended
  exact ⟨n, most, P.retry (Nat.le_trans most two) ▸ P⟩

end Asks

/-! ### Writing -/

/-- Only a pass without a handle asks for another one, and hands it one. -/
theorem setPass_asks (v : VectorId) (i : Nat) (e : Elem) (assigned : Option Handle) :
    Asks (setPass v i e assigned) h (fun next _ => assigned = none ∧ next.isSome = true) := by
  unfold setPass
  refine .after (fun cell h₁ _ => .after (fun _ h₂ _ => .after (fun _ h₃ _ => ?_)))
  unfold storeAt
  refine .after (fun managed h₄ _ => ?_)
  cases managed with
  | some b =>
    refine .after (fun stored h₅ _ => ?_)
    cases stored with
    | some b' => exact .after (fun _ _ _ => .done ())
    | none => trivial
  | none =>
    refine .after (fun p h₅ _ => ?_)
    cases e.object? with
    | none => exact .after (fun _ _ _ => .done ())
    | some o =>
      cases assigned with
      | some k => exact .after (fun _ _ _ => .done ())
      | none => exact .after (fun _ _ _ => .again ⟨rfl, rfl⟩)

theorem setElem_loops (found : h.vectors.find? v = some cell) {i : Nat} {e : Elem}
    (typed : e.type = cell.type) (unshared : cell.sharing.isShared = false) :
    ∃ n ≤ 2, Loops (setPass v i e) none h n (setElem v i e h) := by
  rw [setElem_passes found typed unshared]
  refine Asks.twice ((setPass_asks v i e none).mono ?_) (Nat.le_refl setPasses)
  rintro next h₁ ⟨_, assigned⟩
  refine (setPass_asks v i e next).mono (fun _ _ ⟨missing, _⟩ => ?_)
  rw [missing] at assigned
  cases assigned

/-! ### Promotion -/

theorem handlesOf_objects (os : List Object) :
    Outcome (handlesOf os) h (fun handles _ => handles.map Prod.fst = os) (fun _ _ => True) := by
  induction os generalizing h with
  | nil => rfl
  | cons o os ih =>
    refine .bind_run (fun _ _ _ => trivial) (fun k h₁ _ => ?_)
    exact .bind ih (fun rest h₂ same => congrArg (o :: ·) same)

theorem elementHandles_objects (found : h.vectors.find? v = some cell) :
    Outcome (elementHandles v) h
      (fun handles _ => ∀ b, cell.buffer = some b → handles.map Prod.fst = bufferObjects b)
      (fun _ _ => True) := by
  unfold elementHandles
  rw [Outcome, vector_bind found]
  cases cell.buffer with
  | none => exact fun b some => absurd some (Option.some_ne_none b).symm
  | some b =>
    refine Outcome.mono (handlesOf_objects (bufferObjects b)) (fun handles _ same => ?_) (fun _ _ => id)
    rintro _ ⟨⟩
    exact same

/-- Only a pass whose snapshot is not of the elements asks for another one. -/
theorem promotePass_asks (found : h.vectors.find? v = some cell) (handles : List (Object × Handle)) :
    Asks (promotePass v handles) h
      (fun _ _ => ∃ b, cell.buffer = some b ∧ handles.map Prod.fst ≠ bufferObjects b) := by
  refine .after (fun p h₁ run => .after (fun q h₂ run₂ => .after (fun cell₁ h₃ run₃ => ?_)))
  obtain ⟨p', found₁, _⟩ := (((ensureVectorPeer_sparing v).spares h).ok run).vectors v cell found
  cases ((Still.peer p).same h₁).ok run₂
  rw [vector_run, found₁] at run₃
  cases run₃
  cases managed : cell.buffer with
  | none => exact .done _
  | some b =>
    dsimp only
    split
    · rename_i differs
      exact .after (fun _ _ _ => .again ⟨b, rfl, differs.2⟩)
    · exact .after (fun _ _ _ => .done _)

theorem promote_loops (found : h.vectors.find? v = some cell) :
    Outcome (elementHandles v) h
      (fun handles h₁ => (∃ p, h₁.vectors.find? v = some { cell with peer := p }) ∧
        (∀ b, cell.buffer = some b → handles.map Prod.fst = bufferObjects b) ∧
        Loops (promotePass v) handles h₁ 1 (promote v h))
      (fun f h₁ => promote v h = .error f h₁) := by
  cases run : elementHandles v h with
  | ok handles h₁ =>
    obtain ⟨p, found₁, _⟩ := (((elementHandles_sparing v).spares h).ok run).vectors v cell found
    have same := (elementHandles_objects found).ok run
    refine Outcome.of_ok run ⟨⟨p, found₁⟩, same, ?_⟩
    have whole : promote v h = retry (promotePass v) promotePasses handles h₁ := bind_of_ok run
    rw [whole]
    refine Asks.once ((promotePass_asks found₁ handles).mono ?_) Nat.one_pos
    rintro _ _ ⟨b, managed, differs⟩
    exact differs (same b managed)
  | error f h₁ => exact Outcome.of_error run (bind_of_error run)

/-! ### Another capacity -/

theorem nativeFillers_length (c : ContextId) (type : ElemType) (n : Nat) :
    Outcome (nativeFillers c type n) h (fun made _ => made.length = n) (fun _ _ => True) := by
  induction n generalizing h with
  | zero => rfl
  | succ n ih =>
    refine .bind_run (fun _ _ _ => trivial) (fun o h₁ _ => .bind_run (fun _ _ _ => trivial) ?_)
    exact fun k h₂ _ => .bind ih (fun rest _ count => congrArg (· + 1) count)

/-- Only a pass with another number of fillers than it needs asks for another one, and hands it as many as
that one is going to need. -/
theorem capacityPass_asks (found : h.vectors.find? v = some cell) (n : Nat)
    (made : List (Object × Handle)) :
    Asks (capacityPass v n made) h (fun next h₁ => made.length ≠ n - cell.capacity ∧
      next.length = n - cell.capacity ∧ ∃ p, h₁.vectors.find? v = some { cell with peer := p }) := by
  unfold capacityPass
  rw [Asks, Outcome, vector_bind found]
  refine Asks.guard (fun _ => ?_)
  cases native : cell.buffer with
  | some b => exact .after (fun _ _ _ => .after (fun _ _ _ => .done ()))
  | none =>
    refine .after (fun p h₁ run => ?_)
    cases ((nativePeer_still cell).same h).ok run
    dsimp only
    split
    · rename_i short
      refine .after (fun made' h₂ run₂ => .again ⟨short.2, ?_, ?_⟩)
      · exact (nativeFillers_length ..).ok run₂
      · obtain ⟨p', found₂, _⟩ := (((nativeFillers_sparing ..).spares h).ok run₂).vectors v _ found
        exact ⟨p', native ▸ found₂⟩
    · exact .after (fun _ _ _ => .done ())

theorem setCapacity_loops (found : h.vectors.find? v = some cell) (n : Nat) :
    ∃ k ≤ 2, Loops (capacityPass v n) [] h k (setCapacity v n h) := by
  refine Asks.twice ((capacityPass_asks found n []).mono ?_) (Nat.le_refl capacityPasses)
  rintro made h₁ ⟨_, enough, p, found₁⟩
  exact (capacityPass_asks found₁ n made).mono (fun _ _ ⟨short, _⟩ => short enough)

end Op

namespace Heap

open Op

/-- From any heap, for any vector, the loops end, whatever the elements are and however they repeat. A
write of an element of the vector's type, to a vector that is not shared, makes at most two passes, and
any other write stops ahead of its loop. A promotion whose snapshot can be taken makes one pass: it finds
the store of which the snapshot was taken, and its objects are those of the snapshot. If the snapshot
cannot be taken the promotion stops with that. A change of the capacity makes at most two passes. For
what runs between two passes, whatever becomes of it, leaves the cell of the vector but for a peer that
it may have come to, every peer with its contents, and foreign memory. -/
theorem loops_settle {h : Heap} {v : VectorId} {cell : VectorCell}
    (found : h.vectors.find? v = some cell) :
    (∀ i e, e.type = cell.type → cell.sharing.isShared = false →
      ∃ n ≤ 2, Loops (setPass v i e) none h n (setElem v i e h)) ∧
    (∀ i e, e.type ≠ cell.type ∨ cell.sharing.isShared = true →
      ∃ f, setElem v i e h = .error f h) ∧
    Outcome (elementHandles v) h
      (fun handles h₁ => (∃ p, h₁.vectors.find? v = some { cell with peer := p }) ∧
        (∀ b, cell.buffer = some b → handles.map Prod.fst = bufferObjects b) ∧
        Loops (promotePass v) handles h₁ 1 (promote v h))
      (fun f h₁ => promote v h = .error f h₁) ∧
    (∀ n, ∃ k ≤ 2, Loops (capacityPass v n) [] h k (setCapacity v n h)) ∧
    (∀ o, Outcome (ensureHandle o) h (fun _ h' => h.Conserves h') (fun _ h' => h.Conserves h')) ∧
    ∀ c type n, Outcome (nativeFillers c type n) h (fun _ h' => h.Conserves h')
      (fun _ h' => h.Conserves h') := by
  refine ⟨fun i e typed unshared => setElem_loops found typed unshared, fun i e refused => ?_,
    promote_loops found, setCapacity_loops found, fun o => (ensureHandle_sparing o).spares h,
    fun c type n => (nativeFillers_sparing c type n).spares h⟩
  by_cases typed : e.type = cell.type
  · exact ⟨_, setElem_shared found typed (refused.resolve_left (fun other => other typed)) i⟩
  · exact ⟨_, setElem_mistyped found typed i⟩

/-- A list that contains itself twice, promoted, is written itself once more. -/
theorem loops_settle_over_itself :
    ∃ past h cell, Run (fun _ => True) {} past h ∧ h.vectors.find? ⟨1⟩ = some cell ∧
      h.elements cell = [.list ⟨1⟩, .list ⟨1⟩] ∧ cell.buffer = none ∧
      ∃ n ≤ 2, Loops (setPass ⟨1⟩ 0 (.list ⟨1⟩)) none h n (setElem ⟨1⟩ 0 (.list ⟨1⟩) h) := by
  have run₁ : Run (fun _ => True) {} [{}] _ :=
    Run.start.step (.answer (.newContext .default) ⟨by decide, by simp⟩ rfl)
  have run₂ := run₁.step (.answer (.newVector ⟨0⟩ .list []) ⟨by decide, by simp⟩ rfl)
  have run₃ := run₂.step
    (.answer (.newVector ⟨0⟩ .list [.list ⟨0⟩, .list ⟨0⟩]) ⟨by decide, by simp⟩ rfl)
  have run₄ := run₃.step (.answer (.set ⟨1⟩ 0 (.list ⟨1⟩)) ⟨by decide, by simp⟩ (run_of_ok rfl))
  have run₅ := run₄.step (.answer (.set ⟨1⟩ 1 (.list ⟨1⟩)) ⟨by decide, by simp⟩ (run_of_ok rfl))
  have run₆ := run₅.step (.answer (.promote ⟨1⟩) ⟨by decide, by simp⟩ (run_of_ok rfl))
  exact ⟨_, _, _, run₆, rfl, rfl, rfl, (loops_settle (v := ⟨1⟩) rfl).1 0 (.list ⟨1⟩) rfl rfl⟩

end Heap
end VectorHeap
