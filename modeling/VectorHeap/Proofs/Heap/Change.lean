import VectorHeap.Proofs.Heap.Elements

/-! Changes: what operations do to a heap from one intact state to the next.
A heap grows, a vector takes on another sequence, a string gets a native copy, or a context changes in
what does not name objects. Operations other than those on frames are made of such changes, and so is
what was done before an operation stopped. -/
namespace VectorHeap

abbrev Nowhere {α : Type} : α → Prop := fun _ => False

abbrev Only (v : VectorId) : VectorId → Prop := fun w => w = v

namespace Heap

/-- The foreign buffer that writing to a vector writes, if it has one. -/
abbrev Behind (h : Heap) (v : VectorId) : BufferId → Prop := fun b => h.foreign? v = some b

/-- A vector is left with a sequence, and with no other foreign buffer behind it. -/
def Leaves (h : Heap) (v : VectorId) (s : Sequence) (h' : Heap) : Prop :=
  h'.sequence? v = some s ∧ ∀ b, h'.foreign? v = some b → h.foreign? v = some b

structure Updates (h : Heap) (v : VectorId) (cell : VectorCell) (s : Sequence) (h' : Heap) : Prop where
  found : h.vectors.find? v = some cell
  revises : h.Revises (some v) cell.peer h'
  formed : ∀ cell', h'.vectors.find? v = some cell' →
    h'.VectorFormed v cell' ∧ h'.sequence cell' = s
  pins : ∀ i q', cell.peer = some i → h'.peers.find? i = some q' → ∀ r ∈ q'.refs, h.has r = true

def ownedBytes (h : Heap) (p : PeerId) : Nat :=
  ((h.peers.find? p).map (·.backing.ownedBytes)).getD 0

/-- What a context counts follows what one peer owns. -/
inductive Meters (h : Heap) (c : ContextId) (p : Option PeerId) (h' : Heap) : Prop
  | still (counted : ∀ c', h'.liveBytes c' = h.liveBytes c')
      (owned : ∀ i, h'.ownedBytes i = h.ownedBytes i)
  | moved (i : PeerId) (own : p = some i)
      (elsewhere : ∀ c', c ≠ c' → h'.liveBytes c' = h.liveBytes c')
      (counted : h'.liveBytes c = h.liveBytes c - h.ownedBytes i + h'.ownedBytes i)
      (owned : ∀ j, i ≠ j → h'.ownedBytes j = h.ownedBytes j)

/-- Changes that touch only some vectors and write only into some foreign buffers. -/
inductive Change (T : VectorId → Prop) (B : BufferId → Prop) (h h' : Heap) : Prop
  | growth (G : h.Growth h')
  | update (v : VectorId) (cell : VectorCell) (s : Sequence) (touched : T v)
      (U : h.Updates v cell s h') (metered : h.Meters cell.context cell.peer h')
      (buffers : ∀ b, ¬ B b → h'.buffers.find? b = h.buffers.find? b)
      (continues : (h.sequence cell).Continues h.isNA s)
      (behind : s.complete = true → ∀ b, h'.foreign? v = some b → h.foreign? v = some b)
  | environs (R : h.Revises none none h') (buffers : h'.buffers = h.buffers)
  | text (s : StringId) (cell : StringCell) (p : PeerId) (found : h.strings.find? s = some cell)
      (pointer : cell.peer = some p) (R : h.Revises none (some p) h')
      (metered : h.Meters cell.context (some p) h')
      (formed : h'.StringFormed s cell) (buffers : h'.buffers = h.buffers)

inductive Moves (T : VectorId → Prop) (B : BufferId → Prop) (h : Heap) : Heap → Prop
  | refl : Moves T B h h
  | tail {h₁ h₂ : Heap} (first : Moves T B h h₁) (last : Change T B h₁ h₂) : Moves T B h h₂

variable {T T' : VectorId → Prop} {B B' : BufferId → Prop} {h h' h'' : Heap}

theorem Moves.trans (M : Moves T B h h') (M' : Moves T B h' h'') : Moves T B h h'' := by
  induction M' with
  | refl => exact M
  | tail _ last ih => exact ih.tail last

theorem Change.moves (C : Change T B h h') : Moves T B h h' := Moves.refl.tail C

theorem Change.mono (C : Change T B h h') (touched : ∀ v, T v → T' v) (written : ∀ b, B b → B' b) :
    Change T' B' h h' := by
  cases C with
  | growth G => exact .growth G
  | update v cell s own U metered buffers continues behind =>
    exact .update v cell s (touched v own) U metered (fun b nb => buffers b (fun hb => nb (written b hb)))
      continues behind
  | environs R buffers => exact .environs R buffers
  | text s cell p found pointer R metered formed buffers =>
    exact .text s cell p found pointer R metered formed buffers

theorem Moves.mono (M : Moves T B h h') (touched : ∀ v, T v → T' v) (written : ∀ b, B b → B' b) :
    Moves T' B' h h' := by
  induction M with
  | refl => exact .refl
  | tail _ last ih => exact ih.tail (last.mono touched written)

/-! ### Bytes -/

theorem liveBytes_eq {c : ContextId} {ctx : Context} (found : h.contexts.find? c = some ctx) :
    h.liveBytes c = ctx.registry.liveBytes := by
  rw [liveBytes, found]
  rfl

theorem ownedBytes_eq {p : PeerId} {q : Peer} (found : h.peers.find? p = some q) :
    h.ownedBytes p = q.backing.ownedBytes := by
  rw [ownedBytes, found]
  rfl

theorem Backed.ownedBytes {cell : VectorCell} {b : Backing} (backed : h.Backed cell b)
    (own : ∀ a i, b ≠ .external a i) : b.ownedBytes = cell.type.nativeWidth * cell.capacity := by
  cases b with
  | unallocated => exact backed.elim
  | empty a => rw [backed.2.2, Nat.mul_zero]; rfl
  | owned a bytes => exact backed.2.1
  | external a i => exact absurd rfl (own a i)

theorem ownedBytes_modifyPeer (h : Heap) (p : PeerId) (f : Peer → Peer)
    (kept : ∀ q, h.peers.find? p = some q → (f q).backing.ownedBytes = q.backing.ownedBytes)
    (i : PeerId) : (h.modifyPeer p f).ownedBytes i = h.ownedBytes i :=
  congrArg (Option.getD · 0)
    (h.peers.map_find_modify p i f (fun q => q.backing.ownedBytes) kept)

theorem Revises.meters {v : Option VectorId} (R : h.Revises v none h') (c : ContextId)
    (p : Option PeerId) : h.Meters c p h' :=
  .still (R.counted rfl)
    (fun i => congrArg (fun q => (q.map (·.backing.ownedBytes)).getD 0) (R.peer i (by simp)))

theorem Meters.after {c : ContextId} {p : Option PeerId} (M : h.Meters c p h')
    (counted : ∀ c', h''.liveBytes c' = h'.liveBytes c')
    (owned : ∀ i, h''.ownedBytes i = h'.ownedBytes i) : h.Meters c p h'' := by
  cases M with
  | still counted' owned' =>
    exact .still (fun c' => (counted c').trans (counted' c')) (fun i => (owned i).trans (owned' i))
  | moved i own elsewhere counted' owned' =>
    refine .moved i own (fun c' other => (counted c').trans (elsewhere c' other)) ?_
      (fun j other => (owned j).trans (owned' j other))
    rw [counted, counted', owned]

theorem Meters.since {c : ContextId} {p : Option PeerId} (M : h'.Meters c p h'')
    (counted : ∀ c', h'.liveBytes c' = h.liveBytes c')
    (owned : ∀ i, h'.ownedBytes i = h.ownedBytes i) : h.Meters c p h'' := by
  cases M with
  | still counted' owned' =>
    exact .still (fun c' => (counted' c').trans (counted c')) (fun i => (owned' i).trans (owned i))
  | moved i own elsewhere counted' owned' =>
    refine .moved i own (fun c' other => (elsewhere c' other).trans (counted c')) ?_
      (fun j other => (owned' j other).trans (owned j))
    rw [counted', counted, owned]

/-- A peer takes on other contents, and its context counts them in place of the old ones. -/
theorem meters_of_contents {c : ContextId} {ctx ctx' : Context} {p : PeerId} {q q' : Peer}
    (found : h.contexts.find? c = some ctx) (found' : h'.contexts.find? c = some ctx')
    (hq : h.peers.find? p = some q) (hq' : h'.peers.find? p = some q')
    (elsewhere : ∀ c', c ≠ c' → h'.contexts.find? c' = h.contexts.find? c')
    (peers : ∀ i, p ≠ i → h'.peers.find? i = h.peers.find? i)
    (counted : ctx'.registry.liveBytes =
      ctx.registry.liveBytes - q.backing.ownedBytes + q'.backing.ownedBytes) :
    h.Meters c (some p) h' := by
  refine .moved p rfl (fun c' other => ?_) ?_ (fun i other => ?_)
  · rw [liveBytes, liveBytes, elsewhere c' other]
  · rw [liveBytes_eq found, liveBytes_eq found', ownedBytes_eq hq, ownedBytes_eq hq', counted]
  · rw [ownedBytes, ownedBytes, peers i other]

/-! ### Changes keep a heap intact -/

theorem Updates.intact {v : VectorId} {cell : VectorCell} {s : Sequence} (I : h.Intact)
    (U : h.Updates v cell s h') : h'.Intact :=
  U.revises.intact_vector I U.found (fun cell' found => (U.formed cell' found).1) U.pins

theorem Change.intact (I : h.Intact) (C : Change T B h h') : h'.Intact := by
  cases C with
  | growth G => exact G.intact I
  | update v cell s own U metered buffers => exact U.intact I
  | environs R buffers => exact R.intact_context I
  | text s cell p found pointer R metered formed buffers =>
    have mine : h.peerOf? (.string s) = some p := (peerOf_string found).trans pointer
    refine R.intact I ?_ (fun _ _ none => absurd none (by simp)) ?_ ?_
    · intro w i hi hw
      cases hi
      exact absurd (I.owner_unique mine hw) (by simp)
    · intro i q' hi hq'
      cases hi
      obtain ⟨_, _, pins, _⟩ := formed.peer p q' pointer hq'
      intro r hr
      rw [Peer.refs, pins] at hr
      simp at hr
    · intro s' cell' i hi hs' hi'
      cases hi
      cases I.owner_unique mine ((peerOf_string hs').trans hi')
      cases found.symm.trans hs'
      exact formed

theorem Moves.intact (I : h.Intact) (M : Moves T B h h') : h'.Intact := by
  induction M with
  | refl => exact I
  | tail _ last ih => exact last.intact ih

/-! ### What changes keep -/

theorem Change.frames (C : Change T B h h') : h'.frames = h.frames := by
  cases C with
  | growth G => exact G.frames
  | update v cell s own U metered buffers => exact U.revises.frames
  | environs R buffers => exact R.frames
  | text s cell p found pointer R metered formed buffers => exact R.frames

theorem Moves.frames (M : Moves T B h h') : h'.frames = h.frames := by
  induction M with
  | refl => rfl
  | tail _ last ih => exact last.frames.trans ih

theorem Change.asks (C : Change T B h h') : h.Asks h' := by
  cases C with
  | growth G => exact G.asks
  | update v cell s own U metered buffers => exact U.revises.asks
  | environs R buffers => exact R.asks
  | text s cell p found pointer R metered formed buffers => exact R.asks

theorem Moves.asks (M : Moves T B h h') : h.Asks h' := by
  induction M with
  | refl => exact .refl h
  | tail _ last ih => exact ih.trans last.asks

theorem Revises.contextOf {v : Option VectorId} {p : Option PeerId} (R : h.Revises v p h')
    (o : Object) : h'.contextOf? o = h.contextOf? o := by
  cases o with
  | vector w =>
    have same := congrArg (Option.map Prod.fst) (R.vectors w)
    simp only [Option.map_map] at same
    exact same
  | string s => exact congrArg (fun t => (t.find? s).map (·.context)) R.strings

theorem Change.extends_or_revises (I : h.Intact) (C : Change T B h h') :
    h.Extends h' ∨ ∃ v p, h.Revises v p h' := by
  cases C with
  | growth G => exact .inl (G.extends I)
  | update v cell s own U metered buffers => exact .inr ⟨_, _, U.revises⟩
  | environs R buffers => exact .inr ⟨_, _, R⟩
  | text s cell p found pointer R metered formed buffers => exact .inr ⟨_, _, R⟩

theorem Change.has (I : h.Intact) (C : Change T B h h') {r : Ref} (alive : h.has r = true) :
    h'.has r = true := by
  rcases C.extends_or_revises I with E | ⟨v, p, R⟩
  · exact E.has alive
  · exact (R.has r).trans alive

theorem Moves.has (I : h.Intact) (M : Moves T B h h') {r : Ref} (alive : h.has r = true) :
    h'.has r = true := by
  induction M with
  | refl => exact alive
  | tail first last ih => exact last.has (first.intact I) ih

theorem Moves.isAlive (I : h.Intact) (M : Moves T B h h') {o : Object} (alive : h.isAlive o = true) :
    h'.isAlive o = true := by
  rw [← has_ofObject] at alive ⊢
  exact M.has I alive

theorem Change.contextOf (I : h.Intact) (C : Change T B h h') {o : Object} {c : ContextId}
    (own : h.contextOf? o = some c) : h'.contextOf? o = some c := by
  rcases C.extends_or_revises I with E | ⟨v, p, R⟩
  · exact E.contextOf own
  · exact (R.contextOf o).trans own

theorem Moves.contextOf (I : h.Intact) (M : Moves T B h h') {o : Object} {c : ContextId}
    (own : h.contextOf? o = some c) : h'.contextOf? o = some c := by
  induction M with
  | refl => exact own
  | tail first last ih => exact last.contextOf (first.intact I) ih

theorem Change.peerOf (I : h.Intact) (C : Change T B h h') {o : Object} {p : PeerId}
    (pointer : h.peerOf? o = some p) : h'.peerOf? o = some p := by
  rcases C.extends_or_revises I with E | ⟨v, i, R⟩
  · exact E.peerOf pointer
  · exact (R.peerOf o).trans pointer

theorem Moves.peerOf (I : h.Intact) (M : Moves T B h h') {o : Object} {p : PeerId}
    (pointer : h.peerOf? o = some p) : h'.peerOf? o = some p := by
  induction M with
  | refl => exact pointer
  | tail first last ih => exact last.peerOf (first.intact I) ih

theorem Change.handleOf (I : h.Intact) (C : Change T B h h') {o : Object}
    (named : (h.handleOf o).isSome = true) : h'.handleOf o = h.handleOf o := by
  rcases C.extends_or_revises I with E | ⟨v, i, R⟩
  · exact E.handleOf named
  · exact R.handleOf o

theorem Moves.handleOf (I : h.Intact) (M : Moves T B h h') {o : Object}
    (named : (h.handleOf o).isSome = true) : h'.handleOf o = h.handleOf o := by
  induction M with
  | refl => rfl
  | tail first last ih => exact (last.handleOf (first.intact I) (by rw [ih]; exact named)).trans ih

/-! ### Other vectors -/

/-- A vector is as it was, but that it may have got its peer. A peer that it had is as it was too. -/
def KeepsCell (h : Heap) (w : VectorId) (cell : VectorCell) (h' : Heap) : Prop :=
  ∃ p, h'.vectors.find? w = some { cell with peer := p } ∧ (∀ i, cell.peer = some i → p = some i) ∧
    ∀ i q, cell.peer = some i → h.peers.find? i = some q → h'.peers.find? i = some q

theorem Change.keepsCell (I : h.Intact) (C : Change T B h h') {w : VectorId} (other : ¬ T w)
    {cell : VectorCell} (found : h.vectors.find? w = some cell) : h.KeepsCell w cell h' := by
  cases C with
  | growth G =>
    obtain ⟨p, found', kept⟩ := (G.extends I).vectors w cell found
    exact ⟨p, found', kept, fun i q _ hq => (G.extends I).peers i q hq⟩
  | update v cell' s own U metered buffers =>
    have elsewhere : some v ≠ some w := fun e => other (Option.some.inj e ▸ own)
    refine ⟨cell.peer, (U.revises.vector w elsewhere).trans found, fun _ => id, fun i q hi hq => ?_⟩
    refine (U.revises.peer i (fun e => ?_)).trans hq
    cases I.owner_unique ((peerOf_vector U.found).trans e) ((peerOf_vector found).trans hi)
    exact other own
  | environs R buffers =>
    exact ⟨cell.peer, (R.vector w (by simp)).trans found, fun _ => id,
      fun i q _ hq => (R.peer i (by simp)).trans hq⟩
  | text s cell' p there pointer R metered formed buffers =>
    refine ⟨cell.peer, (R.vector w (by simp)).trans found, fun _ => id, fun i q hi hq => ?_⟩
    refine (R.peer i (fun e => ?_)).trans hq
    cases e
    exact absurd (I.owner_unique ((peerOf_string there).trans pointer)
      ((peerOf_vector found).trans hi)) (by simp)

theorem Change.continues_or_keeps (I : h.Intact) (C : Change T B h h') {w : VectorId}
    {cell : VectorCell} (found : h.vectors.find? w = some cell) :
    (∃ s, h.Updates w cell s h' ∧ (h.sequence cell).Continues h.isNA s ∧
      (s.complete = true → ∀ b, h'.foreign? w = some b → h.foreign? w = some b)) ∨
    h.KeepsCell w cell h' := by
  have kept : ∀ {T : VectorId → Prop}, ¬ T w → Change T B h h' → h.KeepsCell w cell h' :=
    fun other C => C.keepsCell I other found
  cases C with
  | growth G => exact .inr (kept (T := Nowhere) id (.growth G))
  | update v cell' s own U metered buffers continues behind =>
    by_cases same : w = v
    · subst same
      cases found.symm.trans U.found
      exact .inl ⟨s, U, continues, behind⟩
    · exact .inr (kept (T := Only v) same (.update v cell' s rfl U metered buffers continues behind))
  | environs R buffers => exact .inr (kept (T := Nowhere) id (.environs R buffers))
  | text s cell' p there pointer R metered formed buffers =>
    exact .inr (kept (T := Nowhere) id (.text s cell' p there pointer R metered formed buffers))

theorem Updates.sequence {v : VectorId} {cell : VectorCell} {s : Sequence}
    (U : h.Updates v cell s h') : h'.sequence? v = some s := by
  obtain ⟨cell', found', _⟩ := exists_of_map_eq (U.revises.vectors v).symm U.found
  exact sequence_eq_some_iff.mpr ⟨cell', found', (U.formed cell' found').2⟩

theorem Moves.sharing (I : h.Intact) (M : Moves T B h h') {w : VectorId} {cell : VectorCell}
    (found : h.vectors.find? w = some cell) :
    ∃ cell', h'.vectors.find? w = some cell' ∧ cell.sharing ≤ cell'.sharing := by
  induction M with
  | refl => exact ⟨cell, found, cell.sharing.le_refl⟩
  | tail first last ih =>
    obtain ⟨cell₁, found₁, more⟩ := ih
    rcases last.continues_or_keeps (first.intact I) found₁ with ⟨s, U, continues, _⟩ | ⟨p, found₂, _⟩
    · obtain ⟨cell₂, found₂, rfl⟩ := sequence_eq_some_iff.mp U.sequence
      exact ⟨cell₂, found₂, SharingState.le_trans more continues.forward⟩
    · exact ⟨_, found₂, more⟩

theorem Moves.keepsCell (I : h.Intact) (M : Moves T B h h') {w : VectorId} (other : ¬ T w)
    {cell : VectorCell} (found : h.vectors.find? w = some cell) : h.KeepsCell w cell h' := by
  induction M with
  | refl => exact ⟨cell.peer, found, fun _ => id, fun _ _ _ => id⟩
  | tail first last ih =>
    obtain ⟨p, found', kept, peers⟩ := ih
    obtain ⟨p', found'', kept', peers'⟩ := last.keepsCell (first.intact I) other found'
    exact ⟨p', found'', fun i hi => kept' i (kept i hi),
      fun i q hi hq => peers' i q (kept i hi) (peers i q hi hq)⟩

theorem KeepsCell.sequence (I : h.Intact) (I' : h'.Intact) {w : VectorId} {cell : VectorCell}
    (K : h.KeepsCell w cell h') (found : h.vectors.find? w = some cell)
    (buffers : ∀ b, h.foreign? w = some b → h'.buffers.find? b = h.buffers.find? b) :
    h'.sequence? w = some (h.sequence cell) ∧ h'.foreign? w = h.foreign? w := by
  obtain ⟨p, found', kept, peers⟩ := K
  refine ⟨sequence_eq_some_iff.mpr ⟨_, found', ?_⟩, Option.ext (fun b => ?_)⟩
  · have same := elements_congr (I.vectors w cell found) found kept peers buffers
    simp only [Heap.sequence, same]
  · rw [foreign_eq_some_iff, foreign_eq_some_iff]
    constructor
    · rintro ⟨cell', i', q', a, found'', hi', hq', external⟩
      cases found'.symm.trans found''
      cases hbuf : cell.buffer with
      | some b' =>
        have bare := ((I'.vectors w _ found').managed b' hbuf).bare i' q' hi' hq'
        exact absurd (bare.1.symm.trans external) (by simp)
      | none =>
        obtain ⟨i, q, hi, hq, _⟩ := (I.vectors w cell found).native hbuf
        have pointer : i = i' := Option.some.inj ((kept i hi).symm.trans hi')
        subst pointer
        have peer : q = q' := Option.some.inj ((peers i q hi hq).symm.trans hq')
        exact ⟨cell, i, q, a, found, hi, hq, peer ▸ external⟩
    · rintro ⟨cell', i, q, a, found'', hi, hq, external⟩
      cases found.symm.trans found''
      exact ⟨_, i, q, a, found', kept i hi, peers i q hi hq, external⟩

theorem Revises.foreign {v : Option VectorId} (R : h.Revises v none h') (w : VectorId) :
    h'.foreign? w = h.foreign? w := by
  simp only [foreign?, backingOf, R.peerOf]
  cases hi : h.peerOf? (.vector w) with
  | none => rfl
  | some i => simp only [Option.bind_some, R.peer i (by simp)]

theorem foreign_modifyPeer (h : Heap) (p : PeerId) (f : Peer → Peer)
    (kept : ∀ q, (f q).backing = q.backing) (w : VectorId) :
    (h.modifyPeer p f).foreign? w = h.foreign? w := by
  simp only [foreign?, backingOf]
  rw [show (h.modifyPeer p f).peerOf? (.vector w) = h.peerOf? (.vector w) from rfl]
  cases h.peerOf? (.vector w) with
  | none => rfl
  | some i =>
    have same : ((h.modifyPeer p f).peers.find? i).map (·.backing) =
        (h.peers.find? i).map (·.backing) :=
      h.peers.map_find_modify p i f (·.backing) (fun q _ => kept q)
    simp only [Option.bind_some]
    cases hq : h.peers.find? i with
    | none => rw [hq, Option.map_none, Option.map_eq_none_iff] at same; rw [same]
    | some q =>
      obtain ⟨q', hq', backing⟩ := exists_of_map_eq same.symm hq
      simp only [hq', backing]

theorem Change.buffers (C : Change T B h h') {b : BufferId} (unwritten : ¬ B b)
    (there : (h.buffers.find? b).isSome = true) (I : h.Intact) :
    h'.buffers.find? b = h.buffers.find? b := by
  cases C with
  | growth G =>
    obtain ⟨f, found⟩ := Option.isSome_iff_exists.mp there
    rw [found, (G.extends I).buffers b f found]
  | update v cell s own U metered buffers => exact buffers b unwritten
  | environs R buffers => rw [buffers]
  | text s cell p found pointer R metered formed buffers => rw [buffers]

theorem Moves.buffers (I : h.Intact) (M : Moves T B h h') {b : BufferId} (unwritten : ¬ B b)
    (there : (h.buffers.find? b).isSome = true) : h'.buffers.find? b = h.buffers.find? b := by
  induction M with
  | refl => rfl
  | tail first last ih =>
    exact (last.buffers unwritten (by rw [ih]; exact there) (first.intact I)).trans ih

/-- A vector that is not touched, and whose foreign buffer is not written, shows no change. -/
theorem Moves.untouched (I : h.Intact) (M : Moves T B h h') {w : VectorId} (other : ¬ T w)
    (apart : ∀ b, h.foreign? w = some b → ¬ B b) {s : Sequence} (before : h.sequence? w = some s) :
    h'.sequence? w = some s ∧ h'.foreign? w = h.foreign? w := by
  obtain ⟨cell, found, rfl⟩ := sequence_eq_some_iff.mp before
  refine (M.keepsCell I other found).sequence I (M.intact I) found (fun b hb => ?_)
  obtain ⟨f, there⟩ := I.foreign_found hb
  exact M.buffers I (apart b hb) (by rw [there]; rfl)

theorem Moves.kept (I : h.Intact) (M : Moves Nowhere Nowhere h h') {v : VectorId} {cell : VectorCell}
    (found : h.vectors.find? v = some cell) :
    ∃ p, h'.vectors.find? v = some { cell with peer := p } ∧
      (∀ i, cell.peer = some i → p = some i) ∧
      h'.sequence { cell with peer := p } = h.sequence cell ∧ h'.foreign? v = h.foreign? v := by
  obtain ⟨p, found', kept, _⟩ := M.keepsCell I (w := v) id found
  obtain ⟨shows, foreign⟩ := M.untouched I (w := v) id (fun _ _ => id)
    (sequence_eq_some_iff.mpr ⟨cell, found, rfl⟩)
  rw [sequence?, found', Option.map_some] at shows
  exact ⟨p, found', kept, Option.some.inj shows, foreign⟩

theorem Moves.leaves (I : h.Intact) (M : h.Moves Nowhere Nowhere h') {v : VectorId} {s : Sequence}
    (before : h.sequence? v = some s) : h.Leaves v s h' := by
  obtain ⟨shows, foreign⟩ := M.untouched I (w := v) id (fun _ _ => id) before
  exact ⟨shows, fun b there => foreign ▸ there⟩

theorem Leaves.after {v : VectorId} {s s' : Sequence} (first : h.Leaves v s h')
    (last : h'.Leaves v s' h'') : h.Leaves v s' h'' :=
  ⟨last.1, fun b there => first.2 b (last.2 b there)⟩

/-! ### Strings -/

theorem Change.string (I : h.Intact) (C : Change T B h h') {s : StringId} {cell : StringCell}
    (found : h.strings.find? s = some cell) :
    ∃ p, h'.strings.find? s = some { cell with peer := p } := by
  rcases C.extends_or_revises I with E | ⟨v, p, R⟩
  · obtain ⟨p, found', _⟩ := E.strings s cell found
    exact ⟨p, found'⟩
  · exact ⟨cell.peer, (congrArg (·.find? s) R.strings).trans found⟩

theorem Moves.string (I : h.Intact) (M : Moves T B h h') {s : StringId} {cell : StringCell}
    (found : h.strings.find? s = some cell) :
    ∃ p, h'.strings.find? s = some { cell with peer := p } := by
  induction M with
  | refl => exact ⟨cell.peer, found⟩
  | tail first last ih =>
    obtain ⟨p, found'⟩ := ih
    obtain ⟨p', found''⟩ := last.string (first.intact I) found'
    exact ⟨p', found''⟩

theorem Moves.isNA (I : h.Intact) (M : Moves T B h h') {e : Elem}
    (alive : ∀ o, e.object? = some o → h.isAlive o = true) : h'.isNA e = h.isNA e := by
  cases e with
  | str s =>
    obtain ⟨cell, found⟩ := (Store.contains_iff _ s).mp (alive (.string s) rfl)
    obtain ⟨p, found'⟩ := M.string I found
    simp only [Heap.isNA, found, found', Option.map_some]
  | _ => rfl

end Heap
end VectorHeap
