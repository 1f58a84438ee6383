import VectorHeap.Proofs.Lookup

/-! Promotion switches. A switch is flipped before the first vector of its type leaves managed memory,
and it never goes back. So an access that finds it unflipped may go to the managed buffer at once: it
comes to the same as one that looks for native contents. -/
namespace VectorHeap

namespace Heap

variable {allowed : Fault → Prop} {h h' h₀ : Heap} {c : ContextId} {t : ElemType} {past : List Heap}
  {v : VectorId} {cell : VectorCell}

/-! ### Switches along a run -/

theorem Moves.isPromoted {T : VectorId → Prop} {B : BufferId → Prop} (I : h.Intact)
    (M : h.Moves T B h') (promoted : h.isPromoted c t = true) : h'.isPromoted c t = true := by
  induction M with
  | refl => exact promoted
  | tail first last ih =>
    rcases last.extends_or_revises (first.intact I) with E | ⟨_, _, R⟩
    · exact E.isPromoted ih
    · exact R.switches c t ih

theorem Refusal.extends {f : Fault} (R : h.Refusal f h') : h.Intact → h.Extends h' := by
  induction R with
  | entered h c ctx o site found issued => exact fun _ => Extends.entered h c _ o site
  | discarded h h' cell rest ih =>
    intro I
    obtain ⟨E, I₁⟩ := I.discarded cell
    exact E.trans (ih I₁)

theorem Sheds.isPromoted (S : h.Sheds h') (there : h'.has (.context c) = true) :
    h'.isPromoted c t = h.isPromoted c t := by
  obtain ⟨ctx', found'⟩ := has_context_iff.mp there
  obtain ⟨ctx, found, _, switches, _⟩ := S.contexts c ctx' found'
  rw [Heap.isPromoted, Heap.isPromoted, found, found', Option.any_some, Option.any_some, switches]

theorem step_isPromoted (I : h.Intact) (s : Step allowed h h') (there : h'.has (.context c) = true)
    (promoted : h.isPromoted c t = true) : h'.isPromoted c t = true := by
  rcases step_cases I s with ⟨T, B, h₁, M, rfl | R⟩ | ⟨_, f, T, B, h₁, M, R⟩ | S
  · exact M.isPromoted I promoted
  · have later := M.isPromoted I promoted
    rw [R.rest]
    exact later
  · exact (R.extends (M.intact I)).isPromoted (M.isPromoted I promoted)
  · exact (S.isPromoted there).trans promoted

theorem context_of_promoted (promoted : h.isPromoted c t = true) : h.has (.context c) = true := by
  obtain ⟨ctx, found, _⟩ := (Option.any_eq_true _ _).mp promoted
  exact has_context_iff.mpr ⟨ctx, found⟩

theorem run_follows (I : h₀.Intact) (run : Run allowed h₀ past h) : ∀ g ∈ past, g.Follows h := by
  induction run with
  | start => exact fun g hg => absurd hg List.not_mem_nil
  | step run last ih =>
    have F := step_follows (run_intact I run) last
    exact List.forall_mem_cons.mpr ⟨F, fun g hg => (ih g hg).trans F⟩

theorem run_isPromoted (I : h₀.Intact) (run : Run allowed h₀ past h) :
    ∀ g ∈ past, g.isPromoted c t = true → h.has (.context c) = true → h.isPromoted c t = true := by
  induction run with
  | start => exact fun g hg => absurd hg List.not_mem_nil
  | @step past h h' run last ih =>
    have I₁ := run_intact I run
    refine List.forall_mem_cons.mpr ⟨fun promoted there => step_isPromoted I₁ last there promoted, ?_⟩
    intro g hg promoted there
    -- The context was there in between, since no identity is given out twice.
    have F := run_follows I run g hg
    obtain ⟨ctx, found⟩ := has_context_iff.mp (context_of_promoted promoted)
    have old := Nat.lt_of_lt_of_le (Store.lt_next_of_find _ _ ctx found) F.contexts
    have between := (step_follows I₁ last).context c old there
    exact step_isPromoted I₁ last there (ih g hg promoted between)

/-- While a switch is not flipped the vectors of its type are in managed memory. -/
theorem Intact.managed_of_unflipped (I : h.Intact) (found : h.vectors.find? v = some cell)
    (unflipped : h.isPromoted cell.context cell.type = false) : ∃ b, cell.buffer = some b := by
  cases hb : cell.buffer with
  | some b => exact ⟨b, rfl⟩
  | none =>
    obtain ⟨p, q, _, _, N⟩ := (I.vectors v cell found).native hb
    exact absurd (N.switched.symm.trans unflipped) (by decide)

end Heap

/-! ### Operations that do not notice a switch -/

namespace Op

variable {α β σ : Type} {h : Heap} {c : ContextId} {t : ElemType} {v : VectorId} {cell : VectorCell}

theorem flipped_of_promoted (promoted : h.isPromoted c t = true) : flipped h c t = h := by
  have same : h.contexts.modify c (fun ctx => { ctx with switches := ctx.switches.flip t }) =
      h.contexts := by
    refine h.contexts.modify_same c (fun ctx found => ?_)
    rw [Heap.isPromoted, found, Option.any_some] at promoted
    rw [Switches.flip, if_pos promoted]
  rw [flipped, Heap.modifyContext, same]

def flipping (c : ContextId) (t : ElemType) : EStateM.Result Fault Heap α →
    EStateM.Result Fault Heap α
  | .ok a h => .ok a (flipped h c t)
  | .error f h => .error f (flipped h c t)

/-- An operation comes to the same whether a switch is flipped or not, and leaves it as it is. -/
def Ignores (op : Op α) (c : ContextId) (t : ElemType) (h : Heap) : Prop :=
  op (flipped h c t) = flipping c t (op h)

theorem Ignores.bind {x : Op β} {f : β → Op α} (first : Ignores x c t h)
    (rest : ∀ b h', x h = .ok b h' → Ignores (f b) c t h') : Ignores (x >>= f) c t h := by
  unfold Ignores at first ⊢
  rw [bind_run, bind_run, first]
  cases run : x h with
  | ok b h' => exact rest b h' run
  | error e h' => rfl

theorem Ignores.pure (a : α) : Ignores (pure a) c t h := rfl

theorem Ignores.throw (f : Fault) : Ignores (throw f : Op α) c t h := rfl

theorem Ignores.modify {f : Heap → Heap} (same : f (flipped h c t) = flipped (f h) c t) :
    Ignores (modify f) c t h :=
  congrArg (EStateM.Result.ok PUnit.unit) same

theorem Ignores.discard {op : Op α} (o : Ignores op c t h) :
    Ignores (Functor.discard op) c t h := by
  unfold Ignores at o ⊢
  have run : ∀ h, Functor.discard op h = (op >>= fun _ => Pure.pure ()) h := by
    intro h
    rw [bind_run]
    exact map_run _ op h
  rw [run, run]
  exact Ignores.bind o (fun _ _ _ => .pure _)

theorem Ignores.ofPanic (x : Except Panic α) : Ignores (Op.ofPanic x) c t h := by
  cases x <;> rfl

theorem Ignores.checkType (expected found : ElemType) :
    Ignores (Op.checkType expected found) c t h := by
  unfold Op.checkType
  split <;> rfl

theorem Ignores.checkIndex (cell : VectorCell) (i : Nat) :
    Ignores (Op.checkIndex cell i) c t h := by
  unfold Op.checkIndex
  split <;> rfl

theorem Ignores.bufferValues (u : InlineType) (b : Buffer) :
    Ignores (Op.bufferValues u b) c t h := by
  unfold Op.bufferValues
  split <;> rfl

theorem Ignores.vector_bind {f : VectorCell → Op α} (found : h.vectors.find? v = some cell)
    (rest : Ignores (f cell) c t h) : Ignores (vector v >>= f) c t h := by
  unfold Ignores at rest ⊢
  rw [Op.vector_bind found, Op.vector_bind (h := flipped h c t) found, rest]

theorem managed_of_buffer {b : Buffer} (hb : cell.buffer = some b) (h : Heap) :
    managed? cell h = live ((h.contexts.find? cell.context).map (fun _ => some b)) h := by
  unfold managed?
  rw [bind_run, context_run]
  cases h.contexts.find? cell.context with
  | none => rfl
  | some ctx =>
    simp only [live_some, ite_run, hb, Option.map_some]
    split <;> rfl

theorem Ignores.managed_bind {f : Option Buffer → Op α} {b : Buffer} (hb : cell.buffer = some b)
    (rest : Ignores (f (some b)) c t h) : Ignores (managed? cell >>= f) c t h := by
  have same : ((flipped h c t).contexts.find? cell.context).map (fun _ => some b) =
      (h.contexts.find? cell.context).map (fun _ => some b) :=
    h.contexts.map_find_modify c cell.context _ _ (fun _ _ => rfl)
  unfold Ignores at rest ⊢
  rw [bind_run, bind_run, managed_of_buffer hb, managed_of_buffer hb, same]
  cases h.contexts.find? cell.context with
  | none => rfl
  | some ctx => exact rest

theorem Ignores.retry_done {pass : σ → Op (Pass σ α)} {s : σ} {n : Nat}
    (first : Ignores (pass s) c t h)
    (done : Outcome (pass s) h (fun r _ => ∃ a, r = .done a) (fun _ _ => True)) :
    Ignores (retry pass (n + 1) s) c t h := by
  refine first.bind (fun r h' run => ?_)
  obtain ⟨a, rfl⟩ := done.ok run
  exact .pure a

def KeepsSwitch (op : Op α) (c : ContextId) (t : ElemType) (h : Heap) : Prop :=
  Outcome op h (fun _ h' => h'.isPromoted c t = true) (fun _ h' => h'.isPromoted c t = true)

theorem Performs.keepsSwitch {T : VectorId → Prop} {B : BufferId → Prop} {op : Op α}
    {answers : α → Heap → Prop} {stops : Fault → Heap → Prop} (P : Performs T B op h answers stops)
    (I : h.Intact) (promoted : h.isPromoted c t = true) : KeepsSwitch op c t h := by
  refine Outcome.mono P (fun _ h' o => o.1.isPromoted I promoted) ?_
  rintro f h' (⟨M, _⟩ | ⟨_, h₁, M, R⟩)
  · exact M.isPromoted I promoted
  · exact (R.extends (M.intact I)).isPromoted (M.isPromoted I promoted)

theorem Reads.keepsSwitch {op : Op α} {answers : α → Prop} (R : Reads op h answers)
    (promoted : h.isPromoted c t = true) : KeepsSwitch op c t h :=
  Outcome.mono R (fun _ _ o => o.1 ▸ promoted) (fun _ _ o => o.1 ▸ promoted)

/-- There is nothing to notice once a switch is flipped. -/
theorem KeepsSwitch.ignores {op : Op α} (kept : KeepsSwitch op c t h)
    (promoted : h.isPromoted c t = true) : Ignores op c t h := by
  unfold KeepsSwitch Outcome at kept
  unfold Ignores
  rw [flipped_of_promoted promoted]
  split at kept
  · rename_i run
    rw [run, flipping, flipped_of_promoted kept]
  · rename_i run
    rw [run, flipping, flipped_of_promoted kept]

/-! ### Accesses to a managed buffer -/

section
variable (found : h.vectors.find? v = some cell) {b : Buffer} (hb : cell.buffer = some b)
include found hb

theorem getElem_ignores (i : Nat) : Ignores (getElem v i) c t h := by
  refine .vector_bind found ((Ignores.checkIndex cell i).bind (fun _ h' _ => .managed_bind hb ?_))
  dsimp only
  split
  · exact .pure _
  · exact .throw _

theorem getValue_ignores (u : InlineType) (i : Nat) : Ignores (getValue v u i) c t h := by
  refine .vector_bind found ((Ignores.checkType _ _).bind (fun _ h' _ =>
    (Ignores.checkIndex cell i).bind (fun _ h' _ => .managed_bind hb
      ((Ignores.bufferValues u b).bind (fun values h' _ => ?_)))))
  split
  · exact .pure _
  · exact .throw _

theorem toValues_ignores (u : InlineType) : Ignores (toValues v u) c t h := by
  refine .vector_bind found ((Ignores.checkType _ _).bind (fun _ h' _ => .managed_bind hb
    ((Ignores.bufferValues u b).bind (fun values h' _ => ?_))))
  split
  · exact .pure _
  · exact .throw _

end

theorem vector_ignores (v : VectorId) : Ignores (vector v) c t h := by
  unfold Ignores
  rw [vector_run, vector_run, show (flipped h c t).vectors = h.vectors from rfl]
  cases h.vectors.find? v <;> rfl

theorem markShared_ignores (v : VectorId) : Ignores (markShared v) c t h := by
  refine Ignores.discard ((vector_ignores v).bind (fun cell _ _ => ?_))
  exact Ignores.bind (.modify rfl) (fun _ _ _ => .pure _)

theorem markAllShared_ignores (es : List Elem) : Ignores (markAllShared es) c t h := by
  induction es generalizing h with
  | nil => exact .pure _
  | cons e es ih =>
    cases e with
    | list w => exact (markShared_ignores w).bind (fun _ _ _ => ih)
    | _ => exact ih

theorem isNA_flipped (h : Heap) (c : ContextId) (t : ElemType) : (flipped h c t).isNA = h.isNA := by
  funext e
  cases e <;> rfl

theorem newVector_ignores (d : ContextId) (b : Buffer) : Ignores (newVector d b) c t h := by
  unfold newVector overBuffer Ignores
  rw [get_bind, get_bind, isNA_flipped]
  exact (Ignores.ofPanic _).bind (fun _ _ _ => rfl)

theorem copy_ignores (found : h.vectors.find? v = some cell) {b : Buffer}
    (hb : cell.buffer = some b) : Ignores (copy v) c t h := by
  refine .vector_bind found (Ignores.bind (.managed_bind hb (.ofPanic _)) (fun b' h' _ => ?_))
  exact (markAllShared_ignores _).bind (fun _ _ _ => newVector_ignores _ _)

theorem noted_flipped (h : Heap) (v : VectorId) (e : Elem) :
    (flipped h c t).noted v e = flipped (h.noted v e) c t := by
  unfold Heap.noted
  rw [isNA_flipped]
  split <;> rfl

theorem noteMissing_ignores (v : VectorId) (e : Elem) : Ignores (noteMissing v e) c t h := by
  unfold Ignores
  rw [noteMissing_run, noteMissing_run, noted_flipped]
  rfl

theorem storeAt_ignores {b : Buffer} (hb : cell.buffer = some b) (i : Nat) (e : Elem)
    (assigned : Option Handle) : Ignores (storeAt v cell i e assigned) c t h := by
  refine .managed_bind hb ((Ignores.ofPanic _).bind (fun b' h' _ => ?_))
  cases b' with
  | some b' => exact (Ignores.modify rfl).bind (fun _ _ _ => .pure _)
  | none => exact .throw _

theorem setPass_done (I : h.Intact) (found : h.vectors.find? v = some cell) {b : Buffer}
    (hb : cell.buffer = some b) {e : Elem} (sound : Sound h cell.type e) (i : Nat)
    (assigned : Option Handle) :
    Outcome (setPass v i e assigned) h (fun r _ => ∃ a, r = .done a) (fun _ _ => True) := by
  by_cases lt : i < cell.length
  · obtain ⟨h', run, _⟩ := setPass_managed I found hb lt sound assigned
    exact .of_ok run ⟨(), rfl⟩
  · exact .of_error (setPass_beyond found lt assigned) trivial

theorem setElem_ignores (I : h.Intact) (found : h.vectors.find? v = some cell) {b : Buffer}
    (hb : cell.buffer = some b) {e : Elem} (alive : ∀ o, e.object? = some o → h.isAlive o = true)
    (i : Nat) : Ignores (setElem v i e) c t h := by
  refine .vector_bind found ((Ignores.checkType _ _).bind (fun _ h' run => ?_))
  obtain ⟨rfl, typed⟩ := (checkType_reads _ _).ok run
  split
  · exact .throw _
  · refine .retry_done ?_ (setPass_done I found hb ⟨typed, alive⟩ i none)
    exact .vector_bind found ((Ignores.checkIndex cell i).bind (fun _ _ _ =>
      (noteMissing_ignores v e).bind (fun _ _ _ => storeAt_ignores hb i e none)))

/-! ### Contents are never missing -/

def IsBroken (f : Fault) : Prop := ∃ t, f = .error (.representationMismatch t t)

def Unbroken (op : Op α) (h : Heap) : Prop := ∀ f h', op h = .error f h' → ¬ IsBroken f

theorem Unbroken.bind {x : Op β} {f : β → Op α} (first : Unbroken x h)
    (rest : ∀ b h', x h = .ok b h' → Unbroken (f b) h') : Unbroken (x >>= f) h := by
  intro fault h' run
  rw [bind_run] at run
  cases start : x h with
  | ok b h₁ =>
    rw [start] at run
    exact rest b h₁ start fault h' run
  | error e h₁ =>
    rw [start] at run
    cases run
    exact first fault h' start

theorem Unbroken.of_ok {op : Op α} {a : α} {h' : Heap} (run : op h = .ok a h') : Unbroken op h :=
  fun _ _ stop => absurd (run.symm.trans stop) (by simp)

theorem Unbroken.of_error {op : Op α} {f : Fault} {h' : Heap} (run : op h = .error f h')
    (sound : ¬ IsBroken f) : Unbroken op h := by
  intro g h'' stop
  cases run.symm.trans stop
  exact sound

theorem checkType_unbroken (expected found : ElemType) : Unbroken (checkType expected found) h := by
  have run := checkType_run (h := h) expected found
  split at run
  · exact .of_ok run
  · rename_i other
    refine .of_error run ?_
    rintro ⟨u, same⟩
    cases same
    exact other rfl

theorem checkIndex_unbroken (cell : VectorCell) (i : Nat) : Unbroken (checkIndex cell i) h := by
  have run := checkIndex_run (h := h) cell i
  split at run
  · exact .of_ok run
  · exact .of_error run (by simp [IsBroken])

theorem lookup_unbroken {ctx : Context} (hctx : h.contexts.find? c = some ctx) (k : Handle) :
    Unbroken (lookup c k) h := by
  have run := lookup_run hctx k
  split at run
  · exact .of_ok run
  · exact .of_error run (by simp [IsBroken, Registry.invalidHandle])

theorem loadNative_unbroken (I : h.Intact) (found : h.vectors.find? v = some cell)
    (native : cell.buffer = none) {p : PeerId} (hp : cell.peer = some p) {i : Nat}
    (lt : i < cell.capacity) : Unbroken (loadNative cell p i) h := by
  obtain ⟨p', q, hp', hq, N⟩ := (I.vectors v cell found).native native
  cases hp.symm.trans hp'
  cases inline : InlineType.ofElemType? cell.type with
  | some u => exact .of_ok (loadNative_inline inline hq N lt)
  | none =>
    have indirect := Heap.ofElemType_eq_none.mp inline
    have bound : i < q.pins.length := by rw [(N.indirect indirect).count]; exact lt
    obtain ⟨ctx, hctx⟩ := I.context_of_vector found
    have run := loadNative_indirect indirect hq N lt (List.getElem?_eq_getElem bound)
    unfold Unbroken
    rw [run]
    refine Unbroken.bind (lookup_unbroken hctx _) (fun o h₁ _ => ?_)
    exact (checkType_unbroken _ _).bind (fun _ _ _ => .of_ok rfl)

theorem loadNatives_unbroken (I : h.Intact) (found : h.vectors.find? v = some cell)
    (native : cell.buffer = none) {p : PeerId} (hp : cell.peer = some p) (i n : Nat)
    (fits : i + n ≤ cell.capacity) : Unbroken (loadNatives cell p i n) h := by
  induction n generalizing i with
  | zero => exact .of_ok rfl
  | succ n ih =>
    refine (loadNative_unbroken I found native hp (by omega)).bind (fun e h' run => ?_)
    obtain ⟨rfl, _⟩ := (loadNative_reads I found native hp (by omega)).ok run
    exact (ih (i + 1) (by omega)).bind (fun _ _ _ => .of_ok rfl)

theorem usedBuffer_unbroken (I : h.Intact) (found : h.vectors.find? v = some cell) :
    Unbroken (usedBuffer cell) h := by
  have F := I.vectors v cell found
  unfold usedBuffer
  refine Unbroken.bind (.of_ok (managed_run I found)) (fun buffer h' run => ?_)
  cases (managed_run I found).symm.trans run
  cases hb : cell.buffer with
  | some b => exact .of_ok (take_run (by rw [(F.managed b hb).capacity]; exact F.window))
  | none =>
    obtain ⟨p, q, hp, hq, N⟩ := F.native hb
    have fits : 0 + cell.length ≤ cell.capacity := by have := F.window; omega
    refine Unbroken.bind (.of_ok (nativePeer_run hp)) (fun p' h' run => ?_)
    cases (nativePeer_run hp).symm.trans run
    refine (loadNatives_unbroken I found hb hp 0 cell.length fits).bind (fun es h' run => ?_)
    obtain ⟨rfl, _, sound⟩ := (loadNatives_reads I found hb hp 0 cell.length fits).ok run
    exact .of_ok (bufferOf_run (fun e he => (sound e he).1))

theorem copy_unbroken (I : h.Intact) (found : h.vectors.find? v = some cell) :
    Unbroken (copy v) h := by
  cases run : usedBuffer cell h with
  | ok b h₁ =>
    obtain ⟨rfl, sound⟩ := (usedBuffer_reads I found).ok run
    have P : Performs _ _ (copy v) _ _ (fun _ _ => False) := copy_of_buffer I found run sound
    intro f h' stop
    rcases P.error stop with ⟨_, never⟩ | ⟨⟨k, rfl⟩, _⟩
    · exact never.elim
    · simp [IsBroken]
  | error f h₁ =>
    have stop : copy v h = .error f h₁ := by
      unfold copy
      exact (vector_bind found _).trans (bind_of_error run)
    exact .of_error stop (usedBuffer_unbroken I found f h₁ run)

theorem getElem_unbroken (I : h.Intact) (found : h.vectors.find? v = some cell) (i : Nat) :
    Unbroken (getElem v i) h := by
  by_cases lt : i < cell.length
  · cases hb : cell.buffer with
    | some b =>
      obtain ⟨e, _, run⟩ := getElem_managed I found hb lt
      exact .of_ok run
    | none =>
      have F := I.vectors v cell found
      obtain ⟨p, q, hp, _⟩ := F.native hb
      unfold Unbroken
      rw [getElem_native I found hb hp lt]
      exact loadNative_unbroken I found hb hp (Nat.lt_of_lt_of_le lt F.window)
  · exact .of_error (getElem_past found lt) (by simp [IsBroken])

theorem setElem_unbroken (I : h.Intact) (found : h.vectors.find? v = some cell) {e : Elem}
    (alive : ∀ o, e.object? = some o → h.isAlive o = true) (i : Nat) :
    Unbroken (setElem v i e) h := by
  rintro f h' stop ⟨t, rfl⟩
  rcases (setElem_performs I found alive i).error stop with
    ⟨_, ⟨_, refused⟩ | ⟨same, _⟩⟩ | ⟨⟨k, same⟩, _⟩
  · unfold Sequence.set at refused
    split at refused
    · rename_i other
      simp only [Except.error.injEq, Fault.error.injEq, Error.representationMismatch.injEq] at refused
      exact other (refused.2.trans refused.1.symm)
    · split at refused
      · cases refused
      · split at refused <;> cases refused
  · cases same
  · cases same

theorem getValue_unbroken (I : h.Intact) (found : h.vectors.find? v = some cell) (u : InlineType)
    (i : Nat) : Unbroken (getValue v u i) h := by
  unfold getValue Unbroken
  rw [vector_bind found]
  refine (checkType_unbroken _ _).bind (fun _ h' run => ?_)
  obtain ⟨rfl, sort⟩ := (checkType_reads _ _).ok run
  refine (checkIndex_unbroken cell i).bind (fun _ h' run => ?_)
  obtain ⟨rfl, lt⟩ := (checkIndex_reads cell i).ok run
  have F := I.vectors v cell found
  refine Unbroken.bind (.of_ok (managed_run I found)) (fun buffer h' run => ?_)
  cases (managed_run I found).symm.trans run
  cases hb : cell.buffer with
  | some b =>
    have values := (bufferValues_run (h := h') ((F.managed b hb).type.trans sort.symm)).1
    refine Unbroken.bind (.of_ok values) (fun xs h' _ => ?_)
    split
    · exact .of_ok rfl
    · exact .of_error rfl (by simp [IsBroken])
  | none =>
    obtain ⟨p, q, hp, hq, N⟩ := F.native hb
    have inline : InlineType.ofElemType? cell.type = some u := sort ▸ u.ofElemType_elemType
    refine Unbroken.bind (.of_ok (nativePeer_run hp)) (fun p' h' run => ?_)
    cases (nativePeer_run hp).symm.trans run
    exact .of_ok (loadValue_run inline hq N (Nat.lt_of_lt_of_le lt F.window))

theorem toValues_unbroken (I : h.Intact) (found : h.vectors.find? v = some cell) (u : InlineType) :
    Unbroken (toValues v u) h := by
  unfold toValues Unbroken
  rw [vector_bind found]
  refine (checkType_unbroken _ _).bind (fun _ h' run => ?_)
  obtain ⟨rfl, sort⟩ := (checkType_reads _ _).ok run
  have F := I.vectors v cell found
  refine Unbroken.bind (.of_ok (managed_run I found)) (fun buffer h' run => ?_)
  cases (managed_run I found).symm.trans run
  cases hb : cell.buffer with
  | some b =>
    have values := (bufferValues_run (h := h') ((F.managed b hb).type.trans sort.symm)).1
    refine Unbroken.bind (.of_ok values) (fun xs h' _ => ?_)
    split
    · exact .of_ok rfl
    · exact .of_error rfl (by simp [IsBroken])
  | none =>
    obtain ⟨p, q, hp, hq, N⟩ := F.native hb
    refine Unbroken.bind (.of_ok (nativePeer_run hp)) (fun p' h' run => ?_)
    cases (nativePeer_run hp).symm.trans run
    refine Unbroken.bind (.of_ok (peer_ok hq)) (fun q' h' run => ?_)
    cases (peer_ok hq).symm.trans run
    have inside : cell.length * u.width ≤ (h'.contents q.backing).length := by
      have room := N.room.2
      rw [← sort] at room
      exact Nat.le_trans (Nat.mul_le_mul_right _ F.window) room
    exact Unbroken.bind (.of_ok (contentsTo_run inside)) (fun _ _ _ => .of_ok rfl)

/-! ### Accesses that look at a switch -/

/-- The operations on a vector that go to its managed buffer at once as long as the switch of its type
is not flipped. What is stored is alive. -/
inductive Consults (h : Heap) (v : VectorId) : (α : Type) → Op α → Prop
  | get (i : Nat) : Consults h v Elem (getElem v i)
  | set (i : Nat) (e : Elem) (alive : ∀ o, e.object? = some o → h.isAlive o = true) :
    Consults h v Unit (setElem v i e)
  | getValue (u : InlineType) (i : Nat) : Consults h v u.Value (getValue v u i)
  | toValues (u : InlineType) : Consults h v (List u.Value) (toValues v u)
  | copy : Consults h v VectorId (copy v)

theorem Consults.ignores {op : Op α} (I : h.Intact) (found : h.vectors.find? v = some cell)
    (consults : Consults h v α op) : Ignores op cell.context cell.type h := by
  cases promoted : h.isPromoted cell.context cell.type with
  | false =>
    obtain ⟨b, hb⟩ := I.managed_of_unflipped found promoted
    cases consults with
    | get i => exact getElem_ignores found hb i
    | set i e alive => exact setElem_ignores I found hb alive i
    | getValue u i => exact getValue_ignores found hb u i
    | toValues u => exact toValues_ignores found hb u
    | copy => exact copy_ignores found hb
  | true =>
    refine KeepsSwitch.ignores ?_ promoted
    cases consults with
    | get i => exact (getElem_reads I found i).keepsSwitch promoted
    | set i e alive => exact (setElem_performs I found alive i).keepsSwitch I promoted
    | getValue u i => exact (getValue_reads I found u i).keepsSwitch promoted
    | toValues u => exact (toValues_reads I found u).keepsSwitch promoted
    | copy => exact (copy_changes I found).keepsSwitch I promoted

theorem Consults.unbroken {op : Op α} (I : h.Intact) (found : h.vectors.find? v = some cell)
    (consults : Consults h v α op) : Unbroken op h := by
  cases consults with
  | get i => exact getElem_unbroken I found i
  | set i e alive => exact setElem_unbroken I found alive i
  | getValue u i => exact getValue_unbroken I found u i
  | toValues u => exact toValues_unbroken I found u
  | copy => exact copy_unbroken I found

end Op
namespace Heap

open Op

/-- After any run, vectors of a type whose switch is not flipped are in managed memory, and no switch
was ever taken back. So whatever consults the switch comes to the same as if it were flipped, and never
misses the contents of the vector. -/
theorem switches_after_run {supply : Nat → Nat → Option Address} {past : List Heap} {h : Heap}
    (run : Run (fun _ => True) { supply } past h) :
    (∀ v cell, h.vectors.find? v = some cell → h.isPromoted cell.context cell.type = false →
      ∃ b, cell.buffer = some b) ∧
    (∀ g ∈ past, ∀ c t, g.isPromoted c t = true → h.has (.context c) = true →
      h.isPromoted c t = true) ∧
    ∀ v cell, h.vectors.find? v = some cell → ∀ α (op : Op α), Consults h v α op →
      op (flipped h cell.context cell.type) = flipping cell.context cell.type (op h) ∧
      ∀ t, op.result h ≠ .error (.error (.representationMismatch t t)) := by
  have start := intact_of_supply supply
  have I := run_intact start run
  refine ⟨fun v cell found => I.managed_of_unflipped found, fun g hg c t promoted there =>
    run_isPromoted start run g hg promoted there, fun v cell found α op consults =>
    ⟨consults.ignores I found, fun t stop => ?_⟩⟩
  exact consults.unbroken I found _ _ (run_of_error stop) ⟨t, rfl⟩

/-- A vector of integers, in a context that promoted a vector of strings before. -/
theorem switches_after_promotion :
    ∃ past h cell b, Run (fun _ => True) {} past h ∧ h.isPromoted ⟨0⟩ .str = true ∧
      h.isPromoted ⟨0⟩ .int = false ∧ h.vectors.find? ⟨1⟩ = some cell ∧ cell.buffer = some b ∧
      setElem ⟨1⟩ 0 (.int 2) (flipped h ⟨0⟩ .int) =
        flipping ⟨0⟩ .int (setElem ⟨1⟩ 0 (.int 2) h) := by
  let h₁ : Heap := (Call.newContext .default).op.after {}
  let h₂ : Heap := (Call.newVector ⟨0⟩ .str []).op.after h₁
  let h₃ : Heap := (Call.promote ⟨0⟩).op.after h₂
  let h₄ : Heap := (Call.newVector ⟨0⟩ .int [.int 1]).op.after h₃
  have run : Run (fun _ => True) {} [h₃, h₂, h₁, {}] h₄ := by
    refine (((Run.start.step ?_).step ?_).step ?_).step ?_
    · exact .answer (.newContext .default) ⟨by decide, by simp⟩ rfl
    · exact .answer (.newVector ⟨0⟩ .str []) ⟨by decide +kernel, by simp⟩
        (Op.run_of_ok (by decide +kernel))
    · exact .answer (.promote ⟨0⟩) ⟨by decide +kernel, by simp⟩ (Op.run_of_ok (by decide +kernel))
    · exact .answer (.newVector ⟨0⟩ .int [.int 1]) ⟨by decide +kernel, by simp⟩
        (Op.run_of_ok (by decide +kernel))
  obtain ⟨managed, kept, same⟩ := switches_after_run run
  have promoted := kept h₃ (by simp) ⟨0⟩ .str (by decide +kernel) (by decide +kernel)
  have unflipped : h₄.isPromoted ⟨0⟩ .int = false := by decide +kernel
  obtain ⟨cell, found⟩ := has_vector_iff.mp (show h₄.has (.vector ⟨1⟩) = true by decide +kernel)
  have context : cell.context = ⟨0⟩ := by
    have own : h₄.contextOf? (.vector ⟨1⟩) = some ⟨0⟩ := by decide +kernel
    rw [contextOf?, found] at own
    exact Option.some.inj own
  have type : cell.type = .int := by
    have shows : (h₄.vectors.find? ⟨1⟩).map (·.type) = some .int := by decide +kernel
    rw [found] at shows
    exact Option.some.inj shows
  obtain ⟨b, hb⟩ := managed _ _ found (by rw [context, type]; exact unflipped)
  have write := (same _ _ found _ _ (.set 0 (.int 2) (fun o object => by cases object))).1
  rw [context, type] at write
  exact ⟨_, h₄, cell, b, run, promoted, unflipped, found, hb, write⟩

end Heap
end VectorHeap
