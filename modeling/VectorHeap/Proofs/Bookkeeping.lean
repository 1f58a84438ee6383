import VectorHeap.Proofs.Heap.Addresses

/-! Bookkeeping: every operation is a sequence of postings, whatever becomes of it. Nothing is asked of
the heap that it starts from. -/
namespace VectorHeap.Op

variable {α β : Type} {T : VectorId → Backing → Prop} {h h' : Heap} {c : ContextId} {v : VectorId}
  {answers : α → Heap → Prop}

/-! ### Operations that change nothing -/

/-- From every heap an operation leaves that heap. -/
structure Still (op : Op α) : Prop where
  same : ∀ h, Outcome op h (fun _ h' => h' = h) (fun _ h' => h' = h)

namespace Still

theorem pure (a : α) : Still (Pure.pure a : Op α) := ⟨fun _ => rfl⟩

theorem throw (f : Fault) : Still (MonadExcept.throw f : Op α) := ⟨fun _ => rfl⟩

theorem get : Still (MonadState.get : Op Heap) := ⟨fun _ => rfl⟩

theorem bind {x : Op β} {f : β → Op α} (first : Still x) (rest : ∀ b, Still (f b)) :
    Still (x >>= f) := by
  refine ⟨fun h => Outcome.bind (first.same h) ?_⟩
  rintro b _ rfl
  exact (rest b).same _

theorem live (o : Option α) : Still (Op.live o) := by
  cases o with
  | some a => exact pure a
  | none => exact throw .dead

theorem context (c : ContextId) : Still (Op.context c) := get.bind (fun _ => live _)

theorem vector (v : VectorId) : Still (Op.vector v) := get.bind (fun _ => live _)

theorem string (s : StringId) : Still (Op.string s) := get.bind (fun _ => live _)

theorem peer (p : PeerId) : Still (Op.peer p) := get.bind (fun _ => live _)

theorem frame (f : FrameId) : Still (Op.frame f) := get.bind (fun _ => live _)

theorem ofPanic (r : Except Panic α) : Still (Op.ofPanic r) := by
  cases r with
  | ok a => exact pure a
  | error p => exact throw _

theorem ofError (r : Except Error α) : Still (Op.ofError r) := by
  cases r with
  | ok a => exact pure a
  | error e => exact throw _

theorem ite {p : Prop} [Decidable p] {x y : Op α} (first : Still x) (second : Still y) :
    Still (if p then x else y) := by
  split
  · exact first
  · exact second

theorem guard {p : Prop} [Decidable p] {f : Fault} {x : β → Op α} {y : Op α} (rest : Still y) :
    Still (if p then MonadExcept.throw f >>= x else y) :=
  ite ⟨fun _ => rfl⟩ rest

end Still

theorem accessed_still (p : PeerId) (width slot count : Nat) : Still (accessed p width slot count) := by
  unfold accessed allocated contentsTo
  refine Still.bind (.bind (.peer p) (fun q => ?_)) (fun q => ?_)
  · exact .guard (.pure _)
  · exact .guard (.bind .get (fun _ => .guard (.pure _)))

theorem managed_still (cell : VectorCell) : Still (managed? cell) := by
  unfold managed?
  refine Still.bind (.context _) (fun ctx => .ite (.pure _) ?_)
  split
  · exact .pure _
  · exact .throw _

theorem nativePeer_still (cell : VectorCell) : Still (nativePeer cell) := by
  unfold nativePeer
  split
  · exact .pure _
  · exact .throw _

theorem checkType_still (expected found : ElemType) : Still (checkType expected found) :=
  .ite (.pure _) (.throw _)

theorem checkIndex_still (cell : VectorCell) (i : Nat) : Still (checkIndex cell i) :=
  .ite (.pure _) (.throw _)

theorem byteSize_still (width slots : Nat) : Still (byteSize width slots) :=
  .ite (.throw _) (.pure _)

theorem bufferOf_still (type : ElemType) (es : List Elem) : Still (bufferOf type es) := by
  unfold bufferOf
  split
  · exact .pure _
  · exact .throw _

theorem lookup_still (c : ContextId) (k : Handle) : Still (lookup c k) := by
  unfold lookup
  refine Still.bind (.context c) (fun ctx => .bind .get (fun h => ?_))
  split
  · exact .pure _
  · exact .throw _

theorem readSlot_still (p : PeerId) (width slot : Nat) : Still (readSlot p width slot) :=
  (accessed_still p width slot 1).bind (fun _ => .pure _)

theorem loadNative_still (cell : VectorCell) (p : PeerId) (i : Nat) :
    Still (loadNative cell p i) := by
  unfold loadNative
  split
  · exact Still.bind ((readSlot_still ..).bind (fun _ => .pure _)) (fun _ => .pure _)
  · refine Still.bind ((readSlot_still ..).bind (fun _ => .pure _)) (fun k => ?_)
    exact (lookup_still _ k).bind (fun o => (checkType_still ..).bind (fun _ => .pure _))

theorem loadNatives_still (cell : VectorCell) (p : PeerId) (i n : Nat) :
    Still (loadNatives cell p i n) := by
  induction n generalizing i with
  | zero => exact .pure _
  | succ n ih => exact (loadNative_still cell p i).bind (fun _ => (ih (i + 1)).bind (fun _ => .pure _))

theorem usedBuffer_still (cell : VectorCell) : Still (usedBuffer cell) := by
  unfold usedBuffer
  refine (managed_still cell).bind (fun buffer => ?_)
  cases buffer with
  | some b => exact .ofPanic _
  | none => exact (nativePeer_still cell).bind (fun p =>
      (loadNatives_still cell p 0 cell.length).bind (fun _ => bufferOf_still ..))

theorem getElem_still (v : VectorId) (i : Nat) : Still (getElem v i) := by
  unfold getElem
  refine Still.bind (.vector v) (fun cell => (checkIndex_still cell i).bind (fun _ =>
    (managed_still cell).bind (fun buffer => ?_)))
  cases buffer with
  | some b =>
    dsimp only
    split
    · exact .pure _
    · exact .throw _
  | none => exact (nativePeer_still cell).bind (fun p => loadNative_still cell p i)

theorem getElems_still (v : VectorId) (i n : Nat) : Still (getElems v i n) := by
  induction n generalizing i with
  | zero => exact .pure _
  | succ n ih => exact (getElem_still v i).bind (fun _ => (ih (i + 1)).bind (fun _ => .pure _))

theorem toList_still (v : VectorId) : Still (toList v) :=
  (Still.vector v).bind (fun _ => getElems_still ..)

theorem bufferValues_still (t : InlineType) (b : Buffer) : Still (bufferValues t b) :=
  .ite (.pure _) (.throw _)

theorem getValue_still (v : VectorId) (t : InlineType) (i : Nat) : Still (getValue v t i) := by
  unfold getValue
  refine Still.bind (.vector v) (fun cell => (checkType_still ..).bind (fun _ =>
    (checkIndex_still cell i).bind (fun _ => (managed_still cell).bind (fun buffer => ?_))))
  cases buffer with
  | some b =>
    refine (bufferValues_still t b).bind (fun values => ?_)
    split
    · exact .pure _
    · exact .throw _
  | none => exact (nativePeer_still cell).bind (fun p => (readSlot_still ..).bind (fun _ => .pure _))

theorem toValues_still (v : VectorId) (t : InlineType) : Still (toValues v t) := by
  unfold toValues
  refine Still.bind (.vector v) (fun cell => (checkType_still ..).bind (fun _ =>
    (managed_still cell).bind (fun buffer => ?_)))
  cases buffer with
  | some b => exact (bufferValues_still t b).bind (fun values => .ite (.pure _) (.throw _))
  | none =>
    refine (nativePeer_still cell).bind (fun p => (Still.peer p).bind (fun q => ?_))
    exact Still.bind (.bind .get (fun _ => .guard (.pure _))) (fun _ => .pure _)

/-! ### Operations made of postings -/

/-- An operation comes to its answer by postings. A handle that is taken may stop it in the middle of
one. -/
def Posts (T : VectorId → Backing → Prop) (op : Op α) (h : Heap) (answers : α → Heap → Prop) : Prop :=
  Outcome op h (fun a h' => h.Posted T h' ∧ answers a h')
    (fun f h' => h.Posted T h' ∨
      (∃ k, f = .panic (.registeredTwice k)) ∧ ∃ h₁, h.Posted T h₁ ∧ h₁.Refusal f h')

theorem eq_some_of_live {o : Option α} {a : α} (run : live o h = .ok a h') : o = some a := by
  cases o with
  | none => cases run
  | some b =>
    cases run
    rfl

namespace Posts

theorem mono {answers' : α → Heap → Prop} {op : Op α} (P : Posts T op h answers)
    (weaker : ∀ a h', h.Posted T h' → answers a h' → answers' a h') : Posts T op h answers' :=
  Outcome.mono P (fun a h' o => ⟨o.1, weaker a h' o.1 o.2⟩) (fun _ _ => id)

theorem pure {a : α} (ok : answers a h) : Posts T (Pure.pure a : Op α) h answers :=
  Outcome.of_ok rfl ⟨.refl, ok⟩

theorem since {op : Op α} {h₁ : Heap} (posted : h.Posted T h₁) (P : Posts T op h₁ answers) :
    Outcome op h₁ (fun a h' => h.Posted T h' ∧ answers a h')
      (fun f h' => h.Posted T h' ∨
        (∃ k, f = .panic (.registeredTwice k)) ∧ ∃ h₁, h.Posted T h₁ ∧ h₁.Refusal f h') := by
  refine Outcome.mono P (fun a h' o => ⟨posted.trans o.1, o.2⟩) ?_
  rintro g h' (posted' | ⟨twice, h₂, posted', refused⟩)
  · exact .inl (posted.trans posted')
  · exact .inr ⟨twice, h₂, posted.trans posted', refused⟩

theorem bind {x : Op β} {f : β → Op α} {middle : β → Heap → Prop} (first : Posts T x h middle)
    (rest : ∀ b h₁, h.Posted T h₁ → middle b h₁ → Posts T (f b) h₁ answers) :
    Posts T (x >>= f) h answers :=
  Outcome.bind first (fun b h₁ o => (rest b h₁ o.1 o.2).since o.1)

theorem modify_bind {g : Heap → Heap} {f : PUnit → Op α} (Q : h.Quiet (g h))
    (rest : Posts T (f ⟨⟩) (g h) answers) : Posts T ((modify g : Op PUnit) >>= f) h answers := by
  change Outcome (f ⟨⟩) (g h) _ _
  exact rest.since Q.posted

theorem modify {g : Heap → Heap} (Q : h.Quiet (g h)) :
    Posts T (MonadState.modifyGet (fun h => (⟨⟩, g h)) : Op PUnit) h (fun _ _ => True) :=
  Outcome.of_ok rfl ⟨Q.posted, trivial⟩

theorem of_still {op : Op α} (S : Still op) : Posts T op h (fun _ h' => h' = h) := by
  refine Outcome.mono (S.same h) ?_ ?_
  · rintro a _ rfl
    exact ⟨.refl, rfl⟩
  · rintro f _ rfl
    exact .inl .refl

theorem still_bind {x : Op β} {f : β → Op α} (S : Still x)
    (rest : ∀ b, x h = .ok b h → Posts T (f b) h answers) : Posts T (x >>= f) h answers := by
  refine Outcome.bind_run (fun e h' run => ?_) (fun b h' run => ?_)
  · cases (S.same h).error run
    exact .inl .refl
  · cases (S.same h).ok run
    exact rest b run

theorem throw {f : Fault} : Posts T (MonadExcept.throw f : Op α) h answers :=
  Outcome.of_error rfl (.inl .refl)

theorem ite {p : Prop} [Decidable p] {x y : Op α} (first : p → Posts T x h answers)
    (second : ¬ p → Posts T y h answers) : Posts T (if p then x else y) h answers := by
  split
  · exact first ‹_›
  · exact second ‹_›

theorem guard {p : Prop} [Decidable p] {f : Fault} {x : β → Op α} {y : Op α}
    (rest : ¬ p → Posts T y h answers) :
    Posts T (if p then MonadExcept.throw f >>= x else y) h answers :=
  ite (fun _ => Outcome.of_error rfl (.inl .refl)) rest

theorem map {x : Op β} {g : β → α} (P : Posts T x h (fun b h' => answers (g b) h')) :
    Posts T (g <$> x) h answers :=
  Outcome.map P

theorem discard {op : Op α} {ends : Heap → Prop} (P : Posts T op h (fun _ h' => ends h')) :
    Posts T (Functor.discard op) h (fun _ h' => ends h') :=
  P.map

theorem retry {σ : Type} {pass : σ → Op (Pass σ α)} (inv : σ → Heap → Prop)
    (one : ∀ s h, inv s h → Posts T (pass s) h
      (fun r h' => match r with
        | .done a => answers a h'
        | .again s' => inv s' h')) (n : Nat) {s : σ} {h : Heap} (start : inv s h) :
    Posts T (Op.retry pass n s) h answers := by
  induction n generalizing s h with
  | zero => exact .throw
  | succ n ih =>
    refine (one s h start).bind (fun r h₁ _ mid => ?_)
    cases r with
    | done a => exact .pure mid
    | again s' => exact ih mid

theorem vector_bind {f : VectorCell → Op α}
    (rest : ∀ cell, h.vectors.find? v = some cell → Posts T (f cell) h answers) :
    Posts T (vector v >>= f) h answers := by
  refine still_bind (.vector v) (fun cell run => rest cell ?_)
  rw [vector_run] at run
  exact eq_some_of_live run

theorem string_bind {s : StringId} {f : StringCell → Op α}
    (rest : ∀ cell, h.strings.find? s = some cell → Posts T (f cell) h answers) :
    Posts T (string s >>= f) h answers := by
  refine still_bind (.string s) (fun cell run => rest cell ?_)
  rw [string_run] at run
  exact eq_some_of_live run

theorem context_bind {f : Context → Op α}
    (rest : ∀ ctx, h.contexts.find? c = some ctx → Posts T (f ctx) h answers) :
    Posts T (context c >>= f) h answers := by
  refine still_bind (.context c) (fun ctx run => rest ctx ?_)
  rw [context_run] at run
  exact eq_some_of_live run

theorem peer_bind {p : PeerId} {f : Peer → Op α}
    (rest : ∀ q, h.peers.find? p = some q → Posts T (f q) h answers) :
    Posts T (peer p >>= f) h answers := by
  refine still_bind (.peer p) (fun q run => rest q ?_)
  rw [peer_run] at run
  exact eq_some_of_live run

end Posts

end VectorHeap.Op
