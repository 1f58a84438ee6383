import VectorHeap.Proofs.Heap.Backings
import VectorHeap.Proofs.Heap.Tables
import VectorHeap.Proofs.Postings
import VectorHeap.Proofs.Representation
import VectorHeap.Proofs.Switching

/-! Where the data of vectors lies. What was called so far tells it: promotion is for good, foreign memory
stays behind a vector until its capacity is set, and vectors without native slots share the sentinel of
their context. -/
namespace VectorHeap

namespace Heap

/-- The slots of a vector are in a foreign buffer. -/
structure Over (h : Heap) (v : VectorId) (b : BufferId) (foreign : ForeignBuffer) (cell : VectorCell)
    (p : PeerId) (q : Peer) : Prop where
  found : h.vectors.find? v = some cell
  native : cell.buffer = none
  pointer : cell.peer = some p
  peer : h.peers.find? p = some q
  held : h.Native cell q
  backing : q.backing = .external foreign.address b
  there : h.buffers.find? b = some foreign
  direct : cell.type.isIndirect = false
  room : cell.type.nativeWidth * cell.capacity ≤ foreign.bytes.length

theorem Intact.over {h : Heap} {v : VectorId} {b : BufferId} (I : h.Intact)
    (external : h.foreign? v = some b) : ∃ foreign cell p q, h.Over v b foreign cell p q := by
  obtain ⟨cell, p, q, a, found, hp, hq, backing⟩ := foreign_eq_some_iff.mp external
  have F := I.vectors v cell found
  have native : cell.buffer = none := by
    refine Option.eq_none_iff_forall_ne_some.mpr (fun b' managed => ?_)
    exact absurd (((F.managed b' managed).bare p q hp hq).1.symm.trans backing) (by simp)
  obtain ⟨p', q', hp', hq', N⟩ := F.native native
  cases hp.symm.trans hp'
  cases hq.symm.trans hq'
  have backed := N.backed
  rw [backing] at backed
  obtain ⟨_, direct, foreign, there, rfl, room⟩ := backed
  exact ⟨foreign, cell, p, q, found, native, hp, hq, N, backing, there, direct, room⟩

end Heap

namespace Op

variable {h : Heap} {v : VectorId} {cell : VectorCell} {c : ContextId} {b : BufferId} {n : Nat}

/-! ### Single operations -/

theorem promote_native (found : h.vectors.find? v = some cell) (native : cell.buffer = none) {p : PeerId}
    {q : Peer} (pointer : cell.peer = some p) (peer : h.peers.find? p = some q) :
    promote v h = .ok q.handle h := by
  have handles : elementHandles v h = .ok [] h := by
    unfold elementHandles
    rw [vector_bind found, native]
    rfl
  have ensured : ensureVectorPeer v h = .ok p h := by
    unfold ensureVectorPeer
    rw [vector_bind found, pointer]
    rfl
  have pass : promotePass v [] h = .ok (.done q.handle) h := by
    unfold promotePass
    rw [bind_of_ok ensured, peer_bind peer, vector_bind found, native]
    rfl
  exact (bind_of_ok handles).trans ((bind_of_ok pass).trans rfl)

/-- Another capacity is refused without a trace, or the slots move off the foreign memory. -/
theorem setCapacity_over {foreign : ForeignBuffer} {p : PeerId} {q : Peer} (I : h.Intact)
    (O : h.Over v b foreign cell p q) (n : Nat) :
    Outcome (setCapacity v n) h (fun _ h' => Refitted h v cell p q n h')
      (fun _ h' => h' = h ∨ h' = h.placed) := by
  have N := O.held
  by_cases below : n < cell.length
  · have stopped : capacityPass v n [] h = .error (.error (.capacityBelowLength n cell.length)) h := by
      unfold capacityPass
      rw [vector_bind O.found, if_pos below]
      rfl
    exact Outcome.of_error (bind_of_error stopped) (.inl rfl)
  have low : cell.length ≤ n := Nat.le_of_not_lt below
  by_cases denied : Denied h cell.context (cell.type.nativeWidth * n)
  · obtain ⟨f, h', stops, _, same⟩ := refusal_run (α := Unit) h cell.type n denied
    exact Outcome.of_error ((setCapacity_denied I O.found O.native O.pointer O.peer N O.direct low
      denied).trans stops) same
  · obtain ⟨h', run, refitted⟩ := setCapacity_refits I O.found O.native O.pointer O.peer N O.direct low
      denied
    exact Outcome.of_ok run refitted

theorem setCapacity_external (I : h.Intact) (external : h.foreign? v = some b) (n : Nat) :
    Outcome (setCapacity v n) h (fun _ h' => h'.foreign? v = none)
      (fun _ h' => h'.foreign? v = some b) := by
  obtain ⟨_, _, _, _, O⟩ := I.over external
  exact (setCapacity_over I O n).mono (fun _ _ refitted => refitted.foreign)
    (fun _ _ same => by rcases same with rfl | rfl <;> exact external)

theorem adopt_ends (I : h.Intact) (type : ElemType) (buffer : Option BufferId) (length : Nat)
    (ok : (Call.adopt c type buffer length).Admissible h) :
    Outcome (Call.adopt c type buffer length).op h
      (fun _ h' => ∃ b, buffer = some b ∧ h'.foreign? h.vectors.fresh = some b)
      (fun _ h' => h'.has (.vector h.vectors.fresh) = false) := by
  refine Outcome.map (x := adopt c type buffer length) ?_
  have alive : h.has (.context c) = true := ok.alive _ (List.mem_singleton_self _)
  have new := fresh_not_there (h := h)
  cases inline : InlineType.ofElemType? type with
  | none =>
    exact Outcome.of_error (adopt_indirect (Heap.ofElemType_eq_none.mp inline) c buffer length) new
  | some t =>
    obtain ⟨rfl, direct⟩ := Heap.ofElemType_eq_some inline
    cases buffer with
    | none =>
      have stopped : adopt c t.elemType none length h = .error (.error (.nullBuffer length)) h := by
        unfold adopt
        rw [direct]
        rfl
      exact Outcome.of_error stopped new
    | some b =>
      obtain ⟨foreign, there, large⟩ := ok.memory c t.elemType b length rfl
      have P : Performs _ _ (adopt c t.elemType (some b) length) h _ (fun _ _ => False) :=
        adopt_performs I alive there large
      obtain ⟨ctx, found⟩ := Heap.has_context_iff.mp alive
      have assigned := announced_peer found t.elemType length
      have run := adopt_run (c := c) there t length
      split at assigned
      · exact Outcome.of_error (run.trans (bind_of_error assigned)) (Store.contains_erase_self _ _)
      · have answer := run.trans ((bind_of_ok assigned).trans ((bind_of_ok (install_run
          (q := { handle := ctx.registry.nextHandle, owner := .vector h.vectors.fresh })
          (h.peers.find_add_fresh _) rfl ..)).trans rfl))
        exact Outcome.of_ok answer ⟨b, rfl, (P.ok answer).2.2.2.1⟩

end Op

/-! ### Logs -/

structure Entry where
  before : Heap
  call : Call
  answered : Bool

/-- A vector was adopted over a buffer, and no capacity of it was set since. -/
inductive Adopted (v : VectorId) (b : BufferId) : List Entry → Prop
  | adopt (g : Heap) (c : ContextId) (type : ElemType) (length : Nat) (log : List Entry)
      (fresh : v = g.vectors.fresh) : Adopted v b (⟨g, .adopt c type (some b) length, true⟩ :: log)
  | later (e : Entry) (log : List Entry) (before : Adopted v b log)
      (kept : e.answered = true → ∀ n, e.call ≠ .setCapacity v n) : Adopted v b (e :: log)

namespace Heap

/-- What happens between calls: burials, turns of workers, and anybody may release a peer whose owner is
dead, or hand it in. -/
inductive Tidies (h : Heap) : Heap → Prop
  | bury (roots : List Ref) (r : Ref) (dead : r ∈ h.dead roots) : Tidies h (h.bury r)
  | work (c : ContextId) : Tidies h (h.work c)
  | shutdown (c : ContextId) : Tidies h (h.shutdown c)
  | release (c : ContextId) (p : PeerId) (ownerless : h.Ownerless p) : Tidies h (h.release c p).1
  | reclaim (c : ContextId) (p : PeerId) (there : h.has (.peer p) = true) (ownerless : h.Ownerless p) :
    Tidies h (h.reclaim c p)

inductive Ended (h : Heap) (call : Call) (h' : Heap) : Bool → Prop
  | answer (run : call.op h = .ok () h') : Ended h call h' true
  | stop (f : Fault) (run : call.op h = .error f h') : Ended h call h' false

/-- Runs with the calls that were made, the last one first. -/
inductive Logged (h₀ : Heap) : List Entry → Heap → Prop
  | start : Logged h₀ [] h₀
  | call {log : List Entry} {h h' : Heap} {answered : Bool} (run : Logged h₀ log h) (call : Call)
      (ok : call.Admissible h) (ended : h.Ended call h' answered) :
    Logged h₀ (⟨h, call, answered⟩ :: log) h'
  | tidy {log : List Entry} {h h' : Heap} (run : Logged h₀ log h) (last : h.Tidies h') :
    Logged h₀ log h'

variable {h h' h'' h₀ : Heap} {v : VectorId} {b : BufferId} {call : Call} {log : List Entry}
  {answered : Bool}

theorem Tidies.sheds (I : h.Intact) (t : h.Tidies h') : h.Sheds h' := by
  cases t with
  | bury roots r dead => exact bury_sheds I (mem_dead_iff.mp dead).2.2.1
  | work c => exact work_sheds I c
  | shutdown c => exact shutdown_sheds I c
  | release c p ownerless => exact release_sheds I c ownerless
  | reclaim c p there ownerless => exact reclaim_sheds I c there ownerless

theorem Tidies.cleared (I : h.Intact) (t : h.Tidies h') : ∃ P, Cleared P h h' := by
  cases t with
  | bury roots r dead => exact ⟨_, bury_cleared I (mem_dead_iff.mp dead).2.2.1⟩
  | work c => exact ⟨_, work_cleared I c⟩
  | shutdown c => exact ⟨fun _ _ => False, shutdown_cleared h c⟩
  | release c p ownerless =>
    exact ⟨fun _ _ => True, release_cleared (I.unpointed ownerless) trivial⟩
  | reclaim c p there ownerless =>
    exact ⟨fun _ _ => True, reclaim_cleared there (I.unpointed ownerless) trivial⟩

theorem Ended.step (E : h.Ended call h' answered) (ok : call.Admissible h) :
    Step (fun _ => True) h h' := by
  cases E with
  | answer run => exact .answer call ok run
  | stop f run => exact .stop call f ok run trivial

theorem Ended.posted (I : h.Intact) (E : h.Ended call h' answered) :
    ∃ h₁, h.Posted (call.moves h) h₁ ∧ (h' = h₁ ∨ ∃ f, h₁.Refusal f h') := by
  cases E with
  | answer run => exact ⟨h', ((call.posts I).ok run).1, .inl rfl⟩
  | stop f run =>
    rcases (call.posts I).error run with posted | ⟨_, h₁, posted, refused⟩
    · exact ⟨h', posted, .inl rfl⟩
    · exact ⟨h₁, posted, .inr ⟨f, refused⟩⟩

theorem Ended.backingOf (I : h.Intact) (E : h.Ended call h' answered) :
    ∃ h₁, h.Posted (call.moves h) h₁ ∧ ∀ o, h'.backingOf o = h₁.backingOf o := by
  obtain ⟨h₁, posted, rfl | ⟨f, refused⟩⟩ := E.posted I
  · exact ⟨h', posted, fun _ => rfl⟩
  · exact ⟨h₁, posted, refused.backingOf (posted.pointed I.pointed)⟩

/-! ### What stays -/

/-- What is still there keeps its handle, stays native once it is, and keeps its sentinel. -/
structure Steadies (h h' : Heap) : Prop where
  follows : h.Follows h'
  handle : ∀ o, h'.isAlive o = true → (h.handleOf o).isSome = true → h'.handleOf o = h.handleOf o
  native : ∀ o, h'.isAlive o = true → (h.backingOf o).isAllocated = true →
    (h'.backingOf o).isAllocated = true
  sentinel : ∀ c a, h'.has (.context c) = true → h.sentinelOf? c = some a → h'.sentinelOf? c = some a

theorem alive_of_isAllocated {o : Object} (allocated : (h.backingOf o).isAllocated = true) :
    h.isAlive o = true := by
  cases pointer : h.peerOf? o with
  | none => simp [Heap.backingOf, pointer, Backing.isAllocated] at allocated
  | some p => exact alive_of_peerOf pointer

namespace Steadies

theorem refl (h : Heap) : h.Steadies h where
  follows := .refl h
  handle _ _ _ := rfl
  native _ _ := id
  sentinel _ _ _ := id

theorem trans (S : h.Steadies h') (S' : h'.Steadies h'') : h.Steadies h'' where
  follows := S.follows.trans S'.follows
  handle o alive named := by
    obtain ⟨p, q, pointer, _⟩ := peerOf_of_handleOf named
    have issued := S.follows.issued o (issued_of_isAlive (alive_of_peerOf pointer))
    have same := S.handle o (S'.follows.object o issued alive) named
    exact (S'.handle o alive (same ▸ named)).trans same
  native o alive allocated := by
    have issued := S.follows.issued o (issued_of_isAlive (alive_of_isAllocated allocated))
    exact S'.native o alive (S.native o (S'.follows.object o issued alive) allocated)
  sentinel c a there made := by
    obtain ⟨ctx, found, _⟩ := Option.bind_eq_some_iff.mp made
    have issued := Nat.lt_of_lt_of_le (Store.lt_next_of_find _ c ctx found) S.follows.contexts
    exact S'.sentinel c a there (S.sentinel c a (S'.follows.context c issued there) made)

end Steadies

theorem Posted.sentinelOf {T : VectorId → Backing → Prop} (posted : Posted T h h') {c : ContextId}
    {a : Address} (made : h.sentinelOf? c = some a) : h'.sentinelOf? c = some a :=
  posted.carry made (fun _ last => last.sentinelOf)

theorem Refusal.sentinelOf {f : Fault} (R : h.Refusal f h') {c : ContextId} {a : Address}
    (made : h.sentinelOf? c = some a) : h'.sentinelOf? c = some a := by
  induction R with
  | entered h i ctx o site found issued =>
    refine Eq.trans ?_ made
    exact address_modifyRegistry h i (fun r => r.draw.enter ctx.registry.nextHandle h.peers.fresh site)
      (.sentinel c)
  | discarded h h' cell rest ih => exact ih made

theorem Sheds.steadies (I : h.Intact) (S : h.Sheds h') : h.Steadies h' where
  follows := S.follows
  handle o alive _ := S.handleOf I alive
  native o alive allocated := by rw [S.backingOf I alive]; exact allocated
  sentinel c a there made := by
    obtain ⟨ctx', found'⟩ := has_context_iff.mp there
    obtain ⟨ctx, found, same, _⟩ := S.contexts c ctx' found'
    rw [sentinelOf?, found] at made
    rw [sentinelOf?, found', Option.bind_some, same]
    exact made

theorem Ended.steadies (I : h.Intact) (ok : call.Admissible h) (E : h.Ended call h' answered) :
    h.Steadies h' where
  follows := step_follows I (E.step ok)
  handle o alive named := by
    rcases step_cases I (E.step ok) with ⟨T, B, h₁, M, rfl | R⟩ | ⟨_, f, T, B, h₁, M, R⟩ | S
    · exact M.handleOf I named
    · rw [R.rest]
      exact M.handleOf I named
    · have same := M.handleOf I named
      exact ((R.extends (M.intact I)).handleOf (same ▸ named)).trans same
    · exact S.handleOf I alive
  native o _ allocated := by
    obtain ⟨h₁, posted, same⟩ := E.backingOf I
    rw [same]
    exact posted.isAllocated I.pointed allocated
  sentinel c a _ made := by
    obtain ⟨h₁, posted, rfl | ⟨f, refused⟩⟩ := E.posted I
    · exact posted.sentinelOf made
    · exact refused.sentinelOf (posted.sentinelOf made)

namespace Logged

theorem intact (I : h₀.Intact) (run : Logged h₀ log h) : h.Intact := by
  induction run with
  | start => exact I
  | call run call ok ended ih => exact step_intact ih (ended.step ok)
  | tidy run last ih => exact (last.sheds ih).intact ih

theorem steadies (I : h₀.Intact) (run : Logged h₀ log h) : h₀.Steadies h := by
  induction run with
  | start => exact .refl h₀
  | call run call ok ended ih => exact ih.trans (ended.steadies (run.intact I) ok)
  | tidy run last ih => exact ih.trans ((last.sheds (run.intact I)).steadies (run.intact I))

theorem spaced (I : h₀.Intact) (S : h₀.Spaced) (run : Logged h₀ log h) : h.Spaced := by
  induction run with
  | start => exact S
  | call run call ok ended ih =>
    obtain ⟨h₁, posted, rfl | ⟨f, refused⟩⟩ := ended.posted (run.intact I)
    · exact posted.spaced ih
    · exact refused.spaced (posted.spaced ih)
  | tidy run last ih =>
    obtain ⟨P, cleared⟩ := last.cleared (run.intact I)
    exact cleared.spaced ih

end Logged

/-! ### Foreign memory -/

theorem foreign_iff_backingOf : h.foreign? v = some b ↔ ∃ a, h.backingOf (.vector v) = .external a b := by
  unfold foreign?
  cases h.backingOf (.vector v) <;> simp

theorem foreign_of_dead (dead : h.has (.vector v) = false) : h.foreign? v ≠ some b := by
  intro there
  obtain ⟨cell, _, _, _, found, _⟩ := foreign_eq_some_iff.mp there
  exact absurd ((has_vector_iff.mpr ⟨cell, found⟩).symm.trans dead) (by decide)

/-- No call puts a vector that there was over foreign memory. -/
theorem Ended.foreign_back (I : h.Intact) (E : h.Ended call h' answered)
    (there : h.has (.vector v) = true) (external : h'.foreign? v = some b) :
    h.foreign? v = some b := by
  obtain ⟨h₁, posted, same⟩ := E.backingOf I
  obtain ⟨a, external⟩ := foreign_iff_backingOf.mp external
  refine foreign_iff_backingOf.mpr ⟨a, posted.external_back I.pointed ?_ (same _ ▸ external)⟩
  rintro w ⟨⟩ moves
  cases call with
  | setCapacity w n => exact moves.2 a b rfl
  | adopt c type buffer length =>
    rw [moves.1, Op.fresh_not_there] at there
    cases there
  | _ => exact moves

/-- The log tells which foreign memory is behind a vector. -/
structure Traced (h : Heap) (log : List Entry) : Prop where
  issued : ∀ v b, Adopted v b log → v.index < h.vectors.next
  foreign : ∀ v b, h.has (.vector v) = true → (h.foreign? v = some b ↔ Adopted v b log)

theorem adopted_cons_iff {e : Entry} : Adopted v b (e :: log) ↔
    (e.answered = true ∧ v = e.before.vectors.fresh ∧
      ∃ c type length, e.call = .adopt c type (some b) length) ∨
    Adopted v b log ∧ (e.answered = true → ∀ n, e.call ≠ .setCapacity v n) := by
  constructor
  · rintro (⟨g, c, type, length, _, fresh⟩ | ⟨_, _, before, kept⟩)
    · exact .inl ⟨rfl, fresh, c, type, length, rfl⟩
    · exact .inr ⟨before, kept⟩
  · obtain ⟨g, call, answered⟩ := e
    rintro (⟨rfl, fresh, c, type, length, rfl⟩ | ⟨before, kept⟩)
    · exact .adopt g c type length log fresh
    · exact .later _ log before kept

theorem Traced.unmoved (I : h.Intact) (t : h.Traced log) (ok : call.Admissible h)
    (E : h.Ended call h' answered) (never : ∀ b, ¬ call.moves h v b)
    (there : h'.has (.vector v) = true) :
    h'.foreign? v = some b ↔ Adopted v b (⟨h, call, answered⟩ :: log) := by
  have same : h'.foreign? v = some b ↔ h.foreign? v = some b := by
    obtain ⟨h₁, posted, moved⟩ := E.backingOf I
    simp only [foreign_iff_backingOf, moved]
    refine exists_congr (fun a => posted.external I.pointed ?_)
    intro w same
    cases same
    exact never
  have plain : Adopted v b (⟨h, call, answered⟩ :: log) ↔ Adopted v b log := by
    rw [adopted_cons_iff]
    constructor
    · rintro (⟨_, fresh, c, type, length, rfl⟩ | ⟨before, _⟩)
      · exact absurd ⟨fresh, 0, b, rfl⟩ (never (.external 0 b))
      · exact before
    · refine fun before => .inr ⟨before, ?_⟩
      rintro _ n rfl
      exact never .unallocated ⟨rfl, by simp⟩
  rw [same, plain]
  by_cases old : h.has (.vector v) = true
  · exact t.foreign v b old
  · have dead := Bool.eq_false_iff.mpr old
    refine ⟨fun external => absurd external (foreign_of_dead dead), fun before => ?_⟩
    exact absurd ((step_follows I (E.step ok)).object (.vector v) (t.issued v b before) there) old

theorem Traced.capacity (I : h.Intact) (t : h.Traced log) {n : Nat}
    (ok : (Call.setCapacity v n).Admissible h) (E : h.Ended (.setCapacity v n) h' answered) :
    h'.foreign? v = some b ↔ Adopted v b (⟨h, .setCapacity v n, answered⟩ :: log) := by
  have old : h.has (.vector v) = true := ok.alive _ (List.mem_singleton_self _)
  have back : h'.foreign? v = some b → h.foreign? v = some b := E.foreign_back I old
  have forth := fun external : h.foreign? v = some b => Op.setCapacity_external I external n
  rw [adopted_cons_iff, ← t.foreign v b old]
  cases E with
  | answer run =>
    refine ⟨fun external => ?_, ?_⟩
    · exact absurd (((forth (back external)).ok run).symm.trans external) (by simp)
    · rintro (⟨_, _, c, type, length, other⟩ | ⟨_, kept⟩)
      · exact absurd other (by simp)
      · exact absurd rfl (kept rfl n)
  | stop f run =>
    refine ⟨fun external => .inr ⟨back external, nofun⟩, ?_⟩
    rintro (⟨answered, _⟩ | ⟨external, _⟩)
    · exact absurd answered (by simp)
    · exact (forth external).error run

theorem Traced.adoption (I : h.Intact) (t : h.Traced log) {c : ContextId} {type : ElemType}
    {buffer : Option BufferId} {length : Nat} (ok : (Call.adopt c type buffer length).Admissible h)
    (E : h.Ended (.adopt c type buffer length) h' answered)
    (there : h'.has (.vector h.vectors.fresh) = true) :
    h'.foreign? h.vectors.fresh = some b ↔
      Adopted h.vectors.fresh b (⟨h, .adopt c type buffer length, answered⟩ :: log) := by
  have P := Op.adopt_ends I type buffer length ok
  have new : ¬ Adopted h.vectors.fresh b log := fun before =>
    absurd (t.issued _ b before) (Nat.lt_irrefl _)
  rw [adopted_cons_iff]
  cases E with
  | answer run =>
    obtain ⟨i, rfl, external⟩ := P.ok run
    rw [external]
    constructor
    · rintro ⟨⟩
      exact .inl ⟨rfl, rfl, c, type, length, rfl⟩
    · rintro (⟨_, _, _, _, _, same⟩ | ⟨before, _⟩)
      · cases same
        rfl
      · exact absurd before new
  | stop f run => exact absurd (there.symm.trans (P.error run)) (by decide)

theorem Traced.step (I : h.Intact) (t : h.Traced log) (ok : call.Admissible h)
    (E : h.Ended call h' answered) : h'.Traced (⟨h, call, answered⟩ :: log) := by
  have F := step_follows I (E.step ok)
  have foreign : ∀ v b, h'.has (.vector v) = true →
      (h'.foreign? v = some b ↔ Adopted v b (⟨h, call, answered⟩ :: log)) := by
    intro v b there
    by_cases never : ∀ b, ¬ call.moves h v b
    · exact t.unmoved I ok E never there
    · obtain ⟨b', moves⟩ : ∃ b', call.moves h v b' := by simpa using never
      cases call with
      | setCapacity w n =>
        obtain ⟨rfl, _⟩ := moves
        exact t.capacity I ok E
      | adopt c type buffer length =>
        obtain ⟨rfl, _⟩ := moves
        exact t.adoption I ok E there
      | _ => exact absurd moves id
  refine ⟨fun v b adopted => ?_, foreign⟩
  rcases adopted_cons_iff.mp adopted with ⟨answer, fresh, c, type, length, same⟩ | ⟨before, _⟩
  · subst fresh
    cases same
    cases E with
    | stop f run => exact absurd answer (by simp)
    | answer run =>
      obtain ⟨i, _, external⟩ := (Op.adopt_ends I type (some b) length ok).ok run
      obtain ⟨cell, _, _, _, found, _⟩ := foreign_eq_some_iff.mp external
      exact Store.lt_next_of_find _ _ cell found
  · exact F.issued (.vector v) (t.issued v b before)

theorem Traced.tidy (I : h.Intact) (t : h.Traced log) (last : h.Tidies h') : h'.Traced log := by
  have S := last.sheds I
  refine ⟨fun v b adopted => S.nexts.1 ▸ t.issued v b adopted, fun v b there => ?_⟩
  obtain ⟨cell, found⟩ := has_vector_iff.mp there
  rw [← t.foreign v b (has_vector_iff.mpr ⟨cell, S.vectors v cell found⟩)]
  simp only [foreign_iff_backingOf, S.backingOf I ((has_ofObject (.vector v)).symm.trans there)]

theorem Logged.traced (I : h₀.Intact) (t : h₀.Traced []) (run : Logged h₀ log h) : h.Traced log := by
  induction run with
  | start => exact t
  | call run call ok ended ih => exact ih.step (run.intact I) ok ended
  | tidy run last ih => exact ih.tidy (run.intact I) last

/-! ### Where data lies -/

/-- Where the data of a vector lies: nowhere while it is managed, at a foreign buffer while it is over the
one that it adopted, at the sentinel of its context when it has no slots, and else in a block of its own. -/
structure Lies (h : Heap) (log : List Entry) (v : VectorId) (cell : VectorCell) : Prop where
  managed : h.dataAddress (.vector v) = 0 ↔ cell.buffer.isSome = true
  external : ∀ b, h.address? (.buffer b) = some (h.dataAddress (.vector v)) ↔ Adopted v b log
  sentinel : h.address? (.sentinel cell.context) = some (h.dataAddress (.vector v)) ↔
    cell.buffer = none ∧ (∀ b, ¬ Adopted v b log) ∧ cell.capacity = 0
  owned : (∃ p, h.peerOf? (.vector v) = some p ∧
      h.address? (.block p) = some (h.dataAddress (.vector v))) ↔
    cell.buffer = none ∧ (∀ b, ¬ Adopted v b log) ∧ cell.capacity ≠ 0

theorem Intact.nonzero (I : h.Intact) {x : Occupant} {a : Address} (there : h.address? x = some a)
    (block : ∀ p, x ≠ .block p) : a ≠ 0 := by
  cases x with
  | block p => exact absurd rfl (block p)
  | sentinel c =>
    obtain ⟨ctx, found, made⟩ := Option.bind_eq_some_iff.mp there
    exact (I.contexts c ctx found).sentinel a made
  | buffer b =>
    obtain ⟨foreign, found, rfl⟩ := Option.map_eq_some_iff.mp there
    exact I.buffers b foreign found

theorem Spaced.only (S : h.Spaced) {x : Occupant} {a : Address} (there : h.address? x = some a)
    (y : Occupant) : h.address? y = some a ↔ y = x :=
  ⟨fun there' => S y x a there' there, fun same => same ▸ there⟩

theorem managed_lies (I : h.Intact) {cell : VectorCell} {buffer : Buffer}
    (found : h.vectors.find? v = some cell) (managed : cell.buffer = some buffer)
    (traced : ∀ b, h.foreign? v = some b ↔ Adopted v b log) : h.Lies log v cell := by
  have bare : h.backingOf (.vector v) = .unallocated := by
    cases hp : cell.peer with
    | none => simp only [Heap.backingOf, peerOf_vector found, hp, Option.bind_none]
    | some p =>
      obtain ⟨q, hq, _⟩ := I.peer_of_vector found hp
      rw [backingOf_eq ((peerOf_vector found).trans hp) hq]
      exact (((I.vectors v cell found).managed buffer managed).bare p q hp hq).1
  have zero : h.dataAddress (.vector v) = 0 := by rw [dataAddress, bare]; rfl
  have foreign : ∀ b, ¬ Adopted v b log := by
    intro b adopted
    obtain ⟨a, external⟩ := foreign_iff_backingOf.mp ((traced b).mpr adopted)
    exact absurd (bare.symm.trans external) (by simp)
  refine ⟨by simp [zero, managed], fun b => ⟨fun there => ?_, fun adopted => absurd adopted (foreign b)⟩,
    ⟨fun there => ?_, fun native => ?_⟩, ⟨fun there => ?_, fun native => ?_⟩⟩
  · exact absurd zero (I.nonzero there (by simp))
  · exact absurd zero (I.nonzero there (by simp))
  · exact absurd (managed.symm.trans native.1) (by simp)
  · obtain ⟨p, pointer, there⟩ := there
    obtain ⟨q, hq, lies⟩ := Option.bind_eq_some_iff.mp there
    rw [backingOf_eq pointer hq] at bare
    rw [bare] at lies
    exact absurd lies (by simp [Backing.owned?])
  · exact absurd (managed.symm.trans native.1) (by simp)

theorem native_lies (I : h.Intact) (S : h.Spaced) {cell : VectorCell}
    (found : h.vectors.find? v = some cell) (native : cell.buffer = none)
    (traced : ∀ b, h.foreign? v = some b ↔ Adopted v b log) : h.Lies log v cell := by
  obtain ⟨p, q, hp, hq, N⟩ := (I.vectors v cell found).native native
  have pointer := (peerOf_vector found).trans hp
  have backing := backingOf_eq pointer hq
  have backed := N.backed
  have block : ∀ a : Address, (∃ p', h.peerOf? (.vector v) = some p' ∧ h.address? (.block p') = some a) ↔
      h.address? (.block p) = some a := by
    intro a
    refine ⟨fun ⟨p', pointer', there⟩ => ?_, fun there => ⟨p, pointer, there⟩⟩
    cases pointer.symm.trans pointer'
    exact there
  have lies : ∀ x, h.address? x = some (h.dataAddress (.vector v)) →
      h.dataAddress (.vector v) ≠ 0 → (∀ b, Adopted v b log ↔ x = .buffer b) →
      (x = .sentinel cell.context ↔ (∀ b, ¬ Adopted v b log) ∧ cell.capacity = 0) →
      (x = .block p ↔ (∀ b, ¬ Adopted v b log) ∧ cell.capacity ≠ 0) → h.Lies log v cell := by
    intro x there nonzero external sentinel owned
    refine ⟨by simp [nonzero, native], fun b => ?_, ?_, ?_⟩
    · rw [S.only there, external, eq_comm]
    · rw [S.only there, eq_comm, sentinel]
      simp [native]
    · rw [block, S.only there, eq_comm, owned]
      simp [native]
  have foreign : ∀ b, Adopted v b log ↔ ∃ a, q.backing = .external a b := by
    intro b
    rw [← traced, foreign_iff_backingOf, backing]
  rw [dataAddress, backing] at lies
  cases hb : q.backing with
  | unallocated => rw [hb] at backed; exact backed.elim
  | empty a =>
    simp only [hb, reduceCtorEq, exists_false, iff_false] at backed lies foreign
    obtain ⟨nonzero, shared, none⟩ := backed
    exact lies (.sentinel cell.context) shared nonzero (by simp [foreign]) (by simp [foreign, none])
      (by simp [none])
  | owned a bytes =>
    simp only [hb, reduceCtorEq, exists_false, iff_false] at backed lies foreign
    obtain ⟨nonzero, size, positive⟩ := backed
    have some : cell.capacity ≠ 0 := by
      intro none
      rw [size, none, Nat.mul_zero] at positive
      exact absurd positive (by decide)
    refine lies (.block p) ?_ nonzero (by simp [foreign]) (by simp [some]) (by simp [foreign, some])
    rw [address?, hq, Option.bind_some, hb]
    rfl
  | external a i =>
    simp only [hb, Backing.external.injEq, exists_eq_left'] at backed lies foreign
    obtain ⟨nonzero, _, buffer, there, same, _⟩ := backed
    refine lies (.buffer i) ?_ nonzero (by simp [foreign]) (by simp [foreign]) (by simp [foreign])
    rw [address?, there, ← same]
    rfl

theorem Traced.lies (I : h.Intact) (S : h.Spaced) (t : h.Traced log) {cell : VectorCell}
    (found : h.vectors.find? v = some cell) : h.Lies log v cell := by
  have traced := fun b => t.foreign v b (has_vector_iff.mpr ⟨cell, found⟩)
  cases hb : cell.buffer with
  | some buffer => exact managed_lies I found hb traced
  | none => exact native_lies I S found hb traced

theorem Intact.native_iff (I : h.Intact) {cell : VectorCell} (found : h.vectors.find? v = some cell) :
    cell.buffer = none ↔ (h.backingOf (.vector v)).isAllocated = true := by
  have side := ((I.vectors v cell found).represented found).side
  cases hb : cell.buffer <;> simp_all

/-- An object whose data lies at a sentinel has no block and no foreign buffer. -/
theorem Intact.backing_of_sentinel (I : h.Intact) (S : h.Spaced) {c : ContextId} {a : Address}
    (made : h.sentinelOf? c = some a) {o : Object} {p : PeerId} {q : Peer}
    (pointer : h.peerOf? o = some p) (hq : h.peers.find? p = some q) (lies : q.backing.address = a) :
    q.backing = .empty a := by
  have elsewhere : ∀ x, h.address? x = some a → x = .sentinel c := fun x there => S x _ a there made
  have nonzero : a ≠ 0 := I.nonzero (x := .sentinel c) made (by simp)
  cases hb : q.backing with
  | unallocated => rw [hb] at lies; exact absurd lies.symm nonzero
  | empty a' => rw [hb] at lies; exact congrArg Backing.empty lies
  | owned a' bytes =>
    rw [hb] at lies
    exact absurd (elsewhere (.block p) (by rw [address?, hq, Option.bind_some, hb, ← lies]; rfl)) (by simp)
  | external a' b =>
    rw [hb] at lies
    cases o with
    | string s =>
      obtain ⟨cell, found, hp⟩ := Option.bind_eq_some_iff.mp pointer
      rcases ((I.strings s cell found).peer p q hp hq).2.2.2 with bare | ⟨_, _, own, _⟩
      · exact absurd (bare.symm.trans hb) (by simp)
      · exact absurd (own.symm.trans hb) (by simp)
    | vector v =>
      obtain ⟨cell, found, hp⟩ := Option.bind_eq_some_iff.mp pointer
      have native := (I.native_iff found).mpr (by rw [backingOf_eq pointer hq, hb]; rfl)
      obtain ⟨p', q', hp', hq', N⟩ := (I.vectors v cell found).native native
      cases hp.symm.trans hp'
      cases hq.symm.trans hq'
      have backed := N.backed
      rw [hb] at backed
      obtain ⟨_, _, foreign, found', same, _⟩ := backed
      exact absurd (elsewhere (.buffer b) (by rw [address?, found', ← lies, ← same]; rfl)) (by simp)

theorem Intact.overwrite_sentinel (I : h.Intact) (S : h.Spaced) {c : ContextId} {a : Address}
    (made : h.sentinelOf? c = some a) {o : Object} {p : PeerId} (pointer : h.peerOf? o = some p)
    (lies : h.dataAddress o = a) (offset : Nat) (data : Bytes) : h.overwrite p offset data = h := by
  obtain ⟨q, hq, _⟩ := I.peer_of_object pointer
  rw [dataAddress, backingOf_eq pointer hq] at lies
  unfold overwrite
  rw [hq, Option.map_some, Option.getD_some, I.backing_of_sentinel S made pointer hq lies]

/-- After any run in which no peer of a live object was released by hand. For every vector: where its data
lies follows from what was called; and in every later state in which it lives, its handle is the same if
it had one, and if it was native it is so still, and promoting it answers that handle and leaves the heap
as it is. For every context with a sentinel: while the context lives its sentinel lies where it lay, and
nothing else ever lies there, nor does anything write to it. -/
theorem data_address_after_run {supply : Nat → Nat → Option Address} (run : Logged { supply } log h) :
    (∀ v cell, h.vectors.find? v = some cell → h.Lies log v cell ∧
      ∀ later h' cell', Logged h later h' → h'.vectors.find? v = some cell' →
        ((h.handleOf (.vector v)).isSome = true → h'.handleOf (.vector v) = h.handleOf (.vector v)) ∧
        (cell.buffer = none → cell'.buffer = none ∧
          Op.promote v h' = .ok (h.handleOf (.vector v)) h')) ∧
    ∀ c a, h.sentinelOf? c = some a → a ≠ 0 ∧
      ∀ later h', Logged h later h' → h'.has (.context c) = true →
        h'.sentinelOf? c = some a ∧ (∀ x, h'.address? x = some a ↔ x = .sentinel c) ∧
        ∀ o p, h'.peerOf? o = some p → h'.dataAddress o = a →
          ∀ offset data, h'.overwrite p offset data = h' := by
  have I₀ := intact_of_supply supply
  have I := run.intact I₀
  have S := run.spaced I₀ (spaced_of_supply supply)
  have t := run.traced I₀ ⟨nofun, fun v b there => absurd (has_vector_iff.mp there) (by simp)⟩
  refine ⟨fun v cell found => ⟨t.lies I S found, fun later h' cell' rest found' => ?_⟩,
    fun c a made => ⟨I.nonzero (x := .sentinel c) made (by simp), fun later h' rest there => ?_⟩⟩
  · have I' := rest.intact I
    have steady := rest.steadies I
    have alive : h'.isAlive (.vector v) = true := (Store.contains_iff _ v).mpr ⟨cell', found'⟩
    have handle := steady.handle _ alive
    refine ⟨handle, fun native => ?_⟩
    have native' : cell'.buffer = none := (I'.native_iff found').mpr
      (steady.native _ alive ((I.native_iff found).mp native))
    refine ⟨native', ?_⟩
    obtain ⟨p, q, hp, hq, _⟩ := (I.vectors v cell found).native native
    obtain ⟨p', q', hp', hq', _⟩ := (I'.vectors v cell' found').native native'
    rw [← handle (I.handleOf_isSome ((peerOf_vector found).trans hp)),
      handleOf_eq ((peerOf_vector found').trans hp') hq']
    exact Op.promote_native found' native' hp' hq'
  · have made' := (rest.steadies I).sentinel c a there made
    have S' := rest.spaced I S
    exact ⟨made', S'.only (x := .sentinel c) made',
      fun o p pointer lies => (rest.intact I).overwrite_sentinel S' made' pointer lies⟩

/-- A vector that adopts a buffer lies there until it grows, and is native still. -/
theorem data_address_after_growth :
    ∃ log h later h', Logged {} log h ∧ Logged h later h' ∧
      h.address? (.buffer ⟨0⟩) = some (h.dataAddress (.vector ⟨0⟩)) ∧
      h'.address? (.block ⟨0⟩) = some (h'.dataAddress (.vector ⟨0⟩)) ∧
      Op.promote ⟨0⟩ h' = .ok (h.handleOf (.vector ⟨0⟩)) h' := by
  have run₁ : Logged {} [⟨{}, .newContext .default, true⟩] _ :=
    Logged.start.call (.newContext .default) ⟨by decide, by simp⟩ (.answer rfl)
  have run₂ := run₁.call (.newBuffer [1]) ⟨by decide, by simp⟩ (.answer rfl)
  have run₃ := run₂.call (.adopt ⟨0⟩ .raw (some ⟨0⟩) 1)
    ⟨by decide, fun _ _ _ _ own => by cases own; exact ⟨_, rfl, by decide⟩⟩ (.answer rfl)
  obtain ⟨lies, steady⟩ := (data_address_after_run run₃).1 ⟨0⟩ _ rfl
  obtain ⟨rest, grown⟩ := (fun later h' cell' rest found' =>
    And.intro (a := Logged _ later h') rest (steady later h' cell' rest found')) _ _ _
    (Logged.start.call (.setCapacity ⟨0⟩ 2) ⟨by decide, by simp⟩
      (.answer (Op.run_of_ok (by decide +kernel)))) rfl
  exact ⟨_, _, _, _, run₃, rest, (lies.external ⟨0⟩).mpr (.adopt _ _ _ _ _ rfl), by decide,
    (grown.2 rfl).2⟩

/-- A vector that was promoted and whose peer is released by hand is native without an address. -/
theorem data_address_after_release :
    ∃ log h cell, Logged {} log h ∧ (h.release ⟨0⟩ ⟨0⟩).1.vectors.find? ⟨0⟩ = some cell ∧
      cell.buffer = none ∧ (h.release ⟨0⟩ ⟨0⟩).1.dataAddress (.vector ⟨0⟩) = 0 := by
  have run₁ : Logged {} [⟨{}, .newContext .default, true⟩] _ :=
    Logged.start.call (.newContext .default) ⟨by decide, by simp⟩ (.answer rfl)
  have run₂ := run₁.call (.newVector ⟨0⟩ .int [.int 1]) ⟨by decide, by simp⟩ (.answer rfl)
  have run₃ := run₂.call (.promote ⟨0⟩) ⟨by decide, by simp⟩ (.answer rfl)
  exact ⟨_, _, _, run₃, rfl, rfl, by decide⟩

end Heap
end VectorHeap
