import VectorHeap.Proofs.Heap.Clearing

/-! Where the contents of objects are while the books go on. Native contents stay native, an object keeps
its handle, and what a posting may not move stays where it is. -/
namespace VectorHeap

namespace Backing

theorem isAllocated_bare (b : Backing) : b.bare.isAllocated = b.isAllocated := by cases b <;> rfl

theorem bare_eq_external {b : Backing} {a : Address} {i : BufferId} :
    b.bare = .external a i ↔ b = .external a i := by
  cases b <;> simp [bare]

inductive Shifts (T : VectorId → Backing → Prop) (o : Object) (old new : Backing) : Prop
  | same (same : new.bare = old.bare)
  | onto (allocated : new.isAllocated = true)
      (allowed : (old.isAllocated = true ∨ ∃ a i, new = .external a i) → ∃ v, o = .vector v ∧ T v new)

namespace Shifts

variable {T : VectorId → Backing → Prop} {o : Object} {old new : Backing} {a : Address} {i : BufferId}

theorem isAllocated (S : Shifts T o old new) (allocated : old.isAllocated = true) :
    new.isAllocated = true := by
  cases S with
  | same same => rw [← isAllocated_bare, same, isAllocated_bare, allocated]
  | onto allocated' _ => exact allocated'

theorem external_back (S : Shifts T o old new) (never : ∀ v, o = .vector v → ¬ T v (.external a i))
    (external : new = .external a i) : old = .external a i := by
  subst external
  cases S with
  | same same => exact bare_eq_external.mp same.symm
  | onto _ allowed =>
    obtain ⟨v, same, mine⟩ := allowed (.inr ⟨a, i, rfl⟩)
    exact absurd mine (never v same)

theorem external_forth (S : Shifts T o old new) (never : ∀ v, o = .vector v → ∀ b, ¬ T v b)
    (external : old = .external a i) : new = .external a i := by
  subst external
  cases S with
  | same same => exact bare_eq_external.mp same
  | onto _ allowed =>
    obtain ⟨v, same, mine⟩ := allowed (.inl rfl)
    exact absurd mine (never v same new)

end Shifts

end Backing

namespace Heap

variable {T : VectorId → Backing → Prop} {h h' : Heap} {o : Object} {p : PeerId} {q : Peer}

/-! ### The peer of an object -/

def Pointed (h : Heap) : Prop :=
  ∀ o p, h.peerOf? o = some p → ∃ q, h.peers.find? p = some q ∧ q.owner = o

theorem Intact.pointed (I : h.Intact) : h.Pointed := fun _ _ pointer =>
  (I.peer_of_object pointer).imp (fun _ peer => ⟨peer.1, peer.2.1⟩)

theorem Pointed.unique (P : h.Pointed) {o' : Object} (pointer : h.peerOf? o = some p)
    (pointer' : h.peerOf? o' = some p) : o = o' := by
  obtain ⟨q, hq, owner⟩ := P o p pointer
  obtain ⟨q', hq', owner'⟩ := P o' p pointer'
  cases hq.symm.trans hq'
  exact owner.symm.trans owner'

theorem backingOf_congr (pointer : h'.peerOf? o = h.peerOf? o)
    (peers : ∀ p, h.peerOf? o = some p →
      (h'.peers.find? p).map (·.backing.bare) = (h.peers.find? p).map (·.backing.bare)) :
    (h'.backingOf o).bare = (h.backingOf o).bare := by
  unfold backingOf
  rw [pointer]
  cases hp : h.peerOf? o with
  | none => rfl
  | some p =>
    have same := peers p hp
    simp only [Option.bind_some]
    cases hq : h.peers.find? p with
    | none => rw [hq, Option.map_none, Option.map_eq_none_iff] at same; rw [same]
    | some q =>
      obtain ⟨q', hq', backing⟩ := exists_of_map_eq same.symm hq
      rw [hq']
      exact backing.symm

/-! ### Postings -/

theorem Posting.pointed (posting : Posting T h h') (P : h.Pointed) : h'.Pointed := by
  cases posting with
  | quiet Q =>
    intro o p pointer
    obtain ⟨q, hq, owner⟩ := P o p ((Q.pointers o).symm.trans pointer)
    obtain ⟨q', hq', outline⟩ := exists_of_map_eq (Q.peers p).symm hq
    exact ⟨q', hq', (congrArg (·.2.1) outline).symm.trans owner⟩
  | context config unclaimed => intro o p pointer; exact P o p (by cases o <;> exact pointer)
  | buffer foreign n nonzero free => intro o p pointer; exact P o p (by cases o <;> exact pointer)
  | sentinel c ctx address n found none nonzero free =>
    intro o p pointer
    exact P o p (by cases o <;> exact pointer)
  | listed c ctx o₀ site found own bare free =>
    intro o p pointer
    rw [peerOf_listed (isAlive_iff_contextOf.mpr ⟨c, own⟩)] at pointer
    split at pointer
    · rename_i same
      cases pointer
      exact ⟨_, find_listed_fresh, same⟩
    · exact (P o p pointer).imp (fun _ peer => ⟨find_listed_of_find peer.1, peer.2⟩)
  | backed c o₀ p₀ q₀ b own pointer₀ found offered allowed =>
    intro o p pointer
    obtain ⟨q, hq, owner⟩ := P o p (by cases o <;> exact pointer)
    obtain ⟨q', hq', same⟩ := exists_of_map_eq (h.peers.map_find_modify p₀ p
      (fun peer => { peer with backing := b }) (·.owner) (fun _ _ => rfl)).symm hq
    exact ⟨q', hq', same.symm.trans owner⟩

theorem Posting.shifts (posting : Posting T h h') (P : h.Pointed) (o : Object) :
    Backing.Shifts T o (h.backingOf o) (h'.backingOf o) := by
  cases posting with
  | quiet Q =>
    refine .same (backingOf_congr (Q.pointers o) (fun p _ => ?_))
    have outline := congrArg (Option.map (·.2.2.2)) (Q.peers p)
    simp only [Option.map_map] at outline
    exact outline
  | context config unclaimed => exact .same (backingOf_congr (by cases o <;> rfl) (fun _ _ => rfl))
  | buffer foreign n nonzero free =>
    exact .same (backingOf_congr (by cases o <;> rfl) (fun _ _ => rfl))
  | sentinel c ctx address n found none nonzero free =>
    exact .same (backingOf_congr (by cases o <;> rfl) (fun _ _ => rfl))
  | listed c ctx o₀ site found own bare free =>
    have pointer : (h.listed c ctx.registry.nextHandle o₀ site).peerOf? o = _ :=
      peerOf_listed (isAlive_iff_contextOf.mpr ⟨c, own⟩) o
    split at pointer
    · rename_i same
      subst same
      refine .same ?_
      rw [backingOf_eq pointer find_listed_fresh, backingOf, bare]
      rfl
    · refine .same (backingOf_congr pointer (fun p old => ?_))
      obtain ⟨q, hq, _⟩ := P o p old
      rw [hq, find_listed_of_find hq]
  | backed c o₀ p₀ q₀ b own pointer₀ found offered allowed =>
    have pointer : (h.rebacked c p₀ q₀ b).peerOf? o = h.peerOf? o := by cases o <;> rfl
    by_cases same : h.peerOf? o = some p₀
    · cases P.unique same pointer₀
      rw [backingOf_eq same found, backingOf_eq (pointer.trans same)
        ((Store.find_modify_self _ p₀ _).trans (congrArg (Option.map _) found))]
      refine .onto ?_ allowed
      cases b with
      | unallocated => exact offered.elim
      | _ => rfl
    · refine .same (backingOf_congr pointer (fun p hp => ?_))
      have other : p₀ ≠ p := by
        rintro rfl
        exact same hp
      exact congrArg (Option.map _) (Store.find_modify_ne _ _ other)

theorem Posted.pointed (posted : Posted T h h') (P : h.Pointed) : h'.Pointed :=
  posted.carry P (fun _ last => last.pointed)

theorem Posted.isAllocated (posted : Posted T h h') (P : h.Pointed)
    (allocated : (h.backingOf o).isAllocated = true) : (h'.backingOf o).isAllocated = true :=
  (posted.carry (P := fun g => g.Pointed ∧ (g.backingOf o).isAllocated = true) ⟨P, allocated⟩
    (fun _ last ⟨P, allocated⟩ => ⟨last.pointed P, (last.shifts P o).isAllocated allocated⟩)).2

/-- Foreign memory is behind an object just if it was, unless the postings may move its contents. -/
theorem Posted.external (posted : Posted T h h') (P : h.Pointed)
    (never : ∀ v, o = .vector v → ∀ b, ¬ T v b) {a : Address} {i : BufferId} :
    h'.backingOf o = .external a i ↔ h.backingOf o = .external a i :=
  (posted.carry (P := fun g => g.Pointed ∧ (g.backingOf o = .external a i ↔ h.backingOf o = .external a i))
    ⟨P, Iff.rfl⟩ (fun _ last ⟨P, before⟩ => ⟨last.pointed P,
      ⟨fun external => before.mp ((last.shifts P o).external_back (fun v same => never v same _) external),
        fun external => (last.shifts P o).external_forth never (before.mpr external)⟩⟩)).2

theorem Posted.external_back (posted : Posted T h h') (P : h.Pointed) {a : Address} {i : BufferId}
    (never : ∀ v, o = .vector v → ¬ T v (.external a i)) (external : h'.backingOf o = .external a i) :
    h.backingOf o = .external a i :=
  (posted.carry (P := fun g => g.Pointed ∧ (g.backingOf o = .external a i → h.backingOf o = .external a i))
    ⟨P, id⟩ (fun _ last ⟨P, before⟩ => ⟨last.pointed P,
      fun external => before ((last.shifts P o).external_back never external)⟩)).2 external

/-! ### Refusals and clearings -/

theorem Refusal.backingOf {f : Fault} (R : h.Refusal f h') (P : h.Pointed) (o : Object) :
    h'.backingOf o = h.backingOf o := by
  induction R with
  | entered h c ctx o₀ site found issued =>
    have pointer : (h.entered c ctx.registry.nextHandle o₀ site).peerOf? o = h.peerOf? o := by
      cases o <;> rfl
    cases hp : h.peerOf? o with
    | none => simp only [Heap.backingOf, pointer, hp, Option.bind_none]
    | some p =>
      obtain ⟨q, hq, _⟩ := P o p hp
      rw [backingOf_eq hp hq, backingOf_eq (pointer.trans hp)
        (Store.find_add_of_find _ hq)]
  | discarded h h' cell rest ih =>
    have Q := Quiet.discarded h cell
    refine (ih (Posting.pointed (T := fun _ => Nowhere) (.quiet Q) P)).trans ?_
    simp only [Heap.backingOf, Q.pointers]
    rfl

theorem Sheds.backingOf (I : h.Intact) (S : h.Sheds h') (alive : h'.isAlive o = true) :
    h'.backingOf o = h.backingOf o := by
  have pointer := S.peerOf alive
  cases hp : h.peerOf? o with
  | none => simp only [Heap.backingOf, pointer, hp, Option.bind_none]
  | some p =>
    obtain ⟨q, hq, owner, _⟩ := I.peer_of_object hp
    obtain ⟨q', hq'⟩ := has_peer_iff.mp (S.held _ (peerOf_held (pointer.trans hp)))
    rw [backingOf_eq hp hq, backingOf_eq (pointer.trans hp) hq',
      S.peer_of_object alive owner hq hq']

/-! ### Foreign memory -/

/-- The foreign memory of peers is there, also of peers that wait for release. -/
def Buffered (h : Heap) : Prop := ∀ p q a b, h.peers.find? p = some q → q.backing = .external a b →
  ∃ foreign, h.buffers.find? b = some foreign

theorem Buffered.carry (B : h.Buffered)
    (buffers : ∀ b foreign, h.buffers.find? b = some foreign → ∃ foreign', h'.buffers.find? b = some foreign')
    (peers : ∀ p q' a b, h'.peers.find? p = some q' → q'.backing = .external a b →
      (∃ q, h.peers.find? p = some q ∧ q.backing = .external a b) ∨
        ∃ foreign, h'.buffers.find? b = some foreign) : h'.Buffered := by
  intro p q' a b found external
  rcases peers p q' a b found external with ⟨q, old, before⟩ | there
  · obtain ⟨foreign, there⟩ := B p q a b old before
    exact buffers b foreign there
  · exact there

theorem Posting.buffered (posting : Posting T h h') (B : h.Buffered) : h'.Buffered := by
  refine B.carry (fun b foreign there => ?_) (fun p q' a b found external => ?_)
  · obtain ⟨foreign', there', _⟩ := Option.map_eq_some_iff.mp
      (posting.buffers (congrArg (Option.map (·.address)) there))
    exact ⟨foreign', there'⟩
  cases posting with
  | quiet Q =>
    obtain ⟨q, old, outline⟩ := exists_of_map_eq (Q.peers p) found
    have bare : q'.backing.bare = q.backing.bare := congrArg (·.2.2.2) outline
    rw [external] at bare
    exact .inl ⟨q, old, Backing.bare_eq_external.mp bare.symm⟩
  | context config unclaimed => exact .inl ⟨q', found, external⟩
  | buffer foreign n nonzero free => exact .inl ⟨q', found, external⟩
  | sentinel c ctx address n there none nonzero free => exact .inl ⟨q', found, external⟩
  | listed c ctx o site there own bare free =>
    rw [peers_listed] at found
    rcases Store.eq_or_find_of_find_add found with ⟨_, rfl⟩ | old
    · cases external
    · exact .inl ⟨q', old, external⟩
  | backed c o p₀ q₀ new own pointer there offered allowed =>
    by_cases same : p₀ = p
    · subst same
      obtain ⟨q, _, rfl⟩ := Option.map_eq_some_iff.mp ((Store.find_modify_self ..).symm.trans found)
      cases external
      obtain ⟨foreign, behind, _⟩ := Option.map_eq_some_iff.mp offered
      exact .inr ⟨foreign, behind⟩
    · exact .inl ⟨q', (Store.find_modify_ne _ _ same).symm.trans found, external⟩

theorem Posted.buffered (posted : Posted T h h') (B : h.Buffered) : h'.Buffered :=
  posted.carry B (fun _ last => last.buffered)

theorem Refusal.buffered {f : Fault} (R : h.Refusal f h') (B : h.Buffered) : h'.Buffered := by
  induction R with
  | entered h c ctx o site there issued =>
    refine B.carry (fun b foreign there => ⟨foreign, there⟩) (fun p q' a b found external => ?_)
    rcases Store.eq_or_find_of_find_add found with ⟨_, rfl⟩ | old
    · cases external
    · exact .inl ⟨q', old, external⟩
  | discarded h h' cell rest ih => exact ih B

theorem Cleared.buffered {P : ContextId → PeerId → Prop} (cleared : Cleared P h h') (B : h.Buffered) :
    h'.Buffered := by
  refine cleared.carry B (fun {g g'} last B => ?_)
  cases last with
  | gone r unheld =>
    refine B.carry (fun b foreign there => ⟨foreign, by cases r <;> exact there⟩)
      (fun p q' a b found external => .inl ⟨q', (find_without g r).2.2.1 p q' found, external⟩)
  | noted c f queue => exact B
  | reported panics => exact B
  | released c p₀ q₀ there live unpointed given =>
    refine B.carry (fun b foreign there => ⟨foreign, there⟩) (fun p q' a b found external => .inl ?_)
    by_cases same : p₀ = p
    · subst same
      obtain ⟨q, _, rfl⟩ := Option.map_eq_some_iff.mp ((Store.find_modify_self ..).symm.trans found)
      cases external
    · exact ⟨q', (Store.find_modify_ne _ _ same).symm.trans found, external⟩

end Heap
end VectorHeap
