import VectorHeap.Proofs.History

/-! Vectors that are followed along a run. A vector whose elements are of its own context is readable
on whichever side its contents are, and what happens elsewhere does not show in it. -/
namespace VectorHeap

namespace Heap

variable {h h' : Heap} {v : VectorId} {c : ContextId} {cell : VectorCell} {s : Sequence}

/-- The objects among some elements are of a context. -/
def Own (h : Heap) (c : ContextId) (es : List Elem) : Prop :=
  ∀ e ∈ es, ∀ o, e.object? = some o → h.contextOf? o = some c

theorem Balanced.resolve (B : h.Balanced) (I : h.Intact) {ctx : Context}
    (found : h.contexts.find? c = some ctx) {o : Object} (own : h.contextOf? o = some c)
    (named : (h.handleOf o).isSome = true) : h.resolve? c (h.handleOf o) = some o :=
  ((B c ctx found).names.resolve_eq_some_iff I found _ o).mpr ⟨own, named, rfl⟩

theorem readable_of_own (I : h.Intact) (B : h.Balanced) (found : h.vectors.find? v = some cell)
    (own : h.Own cell.context (h.elements cell)) : h.Readable cell := by
  intro native e he o ho
  obtain ⟨ctx, hctx⟩ := I.context_of_vector found
  refine B.resolve I hctx (own e he o ho) ?_
  obtain ⟨p, q, hp, hq, N⟩ := (I.vectors v cell found).native native
  rw [elements_native native hp hq] at he
  cases inline : InlineType.ofElemType? cell.type with
  | some t =>
    rw [nativeElements_inline inline] at he
    obtain ⟨x, _, rfl⟩ := List.mem_map.mp he
    exact absurd ((object_ofValue t x).symm.trans ho) (by simp)
  | none =>
    have indirect := ofElemType_eq_none.mp inline
    rw [nativeElements_indirect indirect] at he
    obtain ⟨o', pin, rfl⟩ := List.mem_map.mp he
    cases (Object.object_toElem o').symm.trans ho
    obtain ⟨i, hi⟩ := List.getElem?_of_mem pin
    exact ((N.indirect indirect).word i o hi).1

/-- A vector of a context that shows a sequence, in a heap whose accounts are right. -/
structure Tracked (h : Heap) (v : VectorId) (c : ContextId) (s : Sequence) : Prop where
  intact : h.Intact
  balanced : h.Balanced
  sequence : h.sequence? v = some s
  context : h.contextOf? (.vector v) = some c
  own : h.Own c s.slots

theorem Tracked.readable (t : h.Tracked v c s) : ∃ cell, h.vectors.find? v = some cell ∧
    h.sequence cell = s ∧ cell.context = c ∧ h.Readable cell := by
  obtain ⟨cell, found, rfl⟩ := sequence_eq_some_iff.mp t.sequence
  have context : cell.context = c := by
    have own := t.context
    rw [contextOf?, found] at own
    exact Option.some.inj own
  subst context
  exact ⟨cell, found, rfl, rfl, readable_of_own t.intact t.balanced found t.own⟩

theorem Tracked.has_context (t : h.Tracked v c s) : h.has (.context c) = true := by
  obtain ⟨cell, found, _, rfl, _⟩ := t.readable
  exact has_context_iff.mpr (t.intact.context_of_vector found)

theorem own_of_inline {es : List Elem} (inline : ∀ e ∈ es, e.object? = none) : h.Own c es :=
  fun e he o ho => absurd ((inline e he).symm.trans ho) (by simp)

theorem Own.later {T : VectorId → Prop} {B : BufferId → Prop} {es : List Elem} (I : h.Intact)
    (M : h.Moves T B h') (own : h.Own c es) : h'.Own c es :=
  fun e he o ho => M.contextOf I (own e he o ho)

theorem Own.set {es : List Elem} {e : Elem} (own : h.Own c es) (mine : h.Own c [e]) (i : Nat) :
    h.Own c (es.set i e) := by
  intro e' he' o ho
  rcases List.mem_or_eq_of_mem_set he' with old | rfl
  · exact own e' old o ho
  · exact mine e' (List.mem_singleton_self e') o ho

/-! ### What happens elsewhere -/

theorem Rebinds.contextOf (R : h.Rebinds h') (o : Object) : h'.contextOf? o = h.contextOf? o := by
  rw [R.rest]
  cases o <;> rfl

theorem Rebinds.sequence (R : h.Rebinds h') (v : VectorId) : h'.sequence? v = h.sequence? v := by
  rw [R.rest]
  rfl

theorem Advances.contextOf {T : VectorId → Prop} {B : BufferId → Prop} (I : h.Intact)
    (A : h.Advances T B h') {o : Object} (own : h.contextOf? o = some c) :
    h'.contextOf? o = some c := by
  obtain ⟨h₁, M, rfl | R⟩ := A
  · exact M.contextOf I own
  · exact (R.contextOf o).trans (M.contextOf I own)

/-- Steps that neither touch a vector nor write its foreign buffer do not show in it. -/
theorem Tracked.advance {T : VectorId → Prop} {B : BufferId → Prop} (t : h.Tracked v c s)
    (A : h.Advances T B h') (untouched : ¬ T v) (unwritten : ∀ b, h.foreign? v = some b → ¬ B b) :
    h'.Tracked v c s := by
  have intact := A.intact t.intact
  have balanced := A.balanced t.intact t.balanced
  obtain ⟨h₁, M, last⟩ := A
  have shows := (M.untouched t.intact untouched unwritten t.sequence).1
  have context := M.contextOf t.intact t.context
  have own := t.own.later t.intact M
  rcases last with rfl | R
  · exact ⟨intact, balanced, shows, context, own⟩
  · exact ⟨intact, balanced, (R.sequence v).trans shows, (R.contextOf _).trans context,
      fun e he o ho => (R.contextOf o).trans (own e he o ho)⟩

theorem Sheds.keepsCell (I : h.Intact) (S : h.Sheds h') (found : h'.vectors.find? v = some cell) :
    h.KeepsCell v cell h' := by
  refine ⟨cell.peer, found, fun _ => id, fun p q hp hq => ?_⟩
  have alive : h'.isAlive (.vector v) = true := (Store.contains_iff _ v).mpr ⟨cell, found⟩
  obtain ⟨q', hq', _⟩ := (S.intact I).peer_of_vector found hp
  obtain ⟨q₀, hq₀, owner, _⟩ := I.peer_of_vector (S.vectors v cell found) hp
  cases hq.symm.trans hq₀
  rw [hq', S.peer_of_object alive owner hq hq']

theorem Sheds.sequence (I : h.Intact) (S : h.Sheds h') (found' : h'.vectors.find? v = some cell) :
    h'.sequence? v = h.sequence? v := by
  have found := S.vectors v cell found'
  rw [((S.keepsCell I found').sequence I (S.intact I) found (fun b _ => by rw [S.buffers])).1,
    sequence?, found, Option.map_some]

theorem Tracked.shed (t : h.Tracked v c s) (S : h.Sheds h') (balanced : h'.Balanced)
    (there : h'.has (.vector v) = true) : h'.Tracked v c s := by
  have I' := S.intact t.intact
  obtain ⟨cell, found'⟩ := has_vector_iff.mp there
  have shows := (S.sequence t.intact found').trans t.sequence
  have context := (S.contextOf (o := .vector v) there).trans t.context
  refine ⟨I', balanced, shows, context, fun e he o ho => ?_⟩
  have held : h'.isAlive o = true := by
    obtain ⟨cell', found'', shown'⟩ := sequence_eq_some_iff.mp shows
    refine I'.alive_of_mem found'' (e := e) ?_ ho
    rw [← shown'] at he
    exact he
  exact (S.contextOf held).trans (t.own e he o ho)

/-! ### Burials of others -/

theorem finishPeer_vectors (h : Heap) (c : ContextId) (p : PeerId) :
    (h.finishPeer c p).vectors = h.vectors := by
  cases hq : h.peers.find? p with
  | none =>
    unfold finishPeer release
    rw [hq]
    rfl
  | some q =>
    unfold finishPeer
    rw [release_eq hq]
    cases q.released <;> rfl

theorem reclaim_vectors (h : Heap) (c : ContextId) (p : PeerId) :
    (h.reclaim c p).vectors = h.vectors := by
  rcases reclaim_cases h c p with ⟨running, queued⟩ | direct | ⟨panic, refused⟩
  · rw [queued]
    rfl
  · rw [direct, finishPeer_vectors]
    rfl
  · rw [refused]
    rfl

theorem work_vectors (h : Heap) (c : ContextId) : (h.work c).vectors = h.vectors := by
  unfold work
  split
  · rfl
  · rw [finishPeer_vectors]
    rfl

theorem bury_vectors (h : Heap) (r : Ref) : (h.bury r).vectors = (h.without r).vectors := by
  unfold bury
  split
  · exact reclaim_vectors _ _ _
  · rfl

/-- A step that neither touches a vector nor writes its foreign buffer nor buries it. -/
inductive Aside (v : VectorId) (h : Heap) : Heap → Prop
  | answer {h' : Heap} (call : Call) (ok : call.Admissible h) (run : call.op h = .ok () h')
      (untouched : ¬ call.touches h v) (unwritten : ∀ b, h.foreign? v = some b → ¬ call.writes h b) :
    Aside v h h'
  | stop {h' : Heap} (call : Call) (f : Fault) (ok : call.Admissible h)
      (run : call.op h = .error f h') (distinct : Distinct f) (untouched : ¬ call.touches h v)
      (unwritten : ∀ b, h.foreign? v = some b → ¬ call.writes h b) : Aside v h h'
  | bury (roots : List Ref) (kept : .vector v ∈ roots) (r : Ref) (dead : r ∈ h.dead roots) :
    Aside v h (h.bury r)
  | work (c : ContextId) : Aside v h (h.work c)
  | shutdown (c : ContextId) : Aside v h (h.shutdown c)

theorem Tracked.aside (t : h.Tracked v c s) (step : Aside v h h') : h'.Tracked v c s := by
  obtain ⟨cell, found, _⟩ := t.readable
  have there := has_vector_iff.mpr ⟨cell, found⟩
  cases step with
  | answer call ok run untouched unwritten =>
    exact t.advance ((call.ends t.intact ok).ok run) untouched unwritten
  | stop call f ok run distinct untouched unwritten =>
    rcases (call.ends t.intact ok).error run with ⟨_, A⟩ | ⟨⟨k, rfl⟩, _⟩
    · exact t.advance A untouched unwritten
    · exact absurd rfl (distinct k)
  | bury roots kept r dead =>
    obtain ⟨_, root, unheld, _⟩ := mem_dead_iff.mp dead
    have other : r ≠ .vector v := fun e => root (e ▸ kept)
    refine t.shed (bury_sheds t.intact unheld) (bury_balanced t.intact t.balanced unheld) ?_
    rw [has, bury_vectors]
    exact (has_without other).trans there
  | work c =>
    refine t.shed (work_sheds t.intact c) (work_balanced t.intact t.balanced c) ?_
    rw [has, work_vectors]
    exact there
  | shutdown c => exact t.shed (shutdown_sheds t.intact c) (shutdown_balanced t.balanced c) there

end Heap
end VectorHeap
