import VectorHeap.Proofs.Heap.Backings
import VectorHeap.Proofs.Heap.Region

/-! Omissions: what is done in one region of a heap is left out of another heap, which goes on with the
identities that come after. Nothing outside of the region shows the difference. -/
namespace VectorHeap

/-! ### Stores -/

namespace Store

variable {k : Kind} {α : Type} {N F : Id k → Prop} {P Q : α → Prop} {s s' t : Store k α} {i : Id k}

def given (s : Store k α) (i : Id k) : Prop := i.index < s.next

def skip (s : Store k α) (n : Nat) : Store k α where
  next := max s.next n
  table := s.table
  below i hi := Nat.lt_of_lt_of_le (s.below i hi) (Nat.le_max_left ..)

theorem given_of_find {a : α} (found : s.find? i = some a) : s.given i := lt_next_of_find s i a found

theorem find_of_not_given (new : ¬ s.given i) : s.find? i = none :=
  Option.eq_none_iff_forall_ne_some.mpr (fun _ found => new (given_of_find found))

theorem Encloses.alike (E : s.Encloses N P) (G : s.Encloses s.given Q) {N' : Id k → Prop} {P' : α → Prop}
    (alike : ∀ i, s.given i → N' i → N i) (good : ∀ a, Q a → P a → P' a) : s.Encloses N' P' := by
  intro i a own found
  have old := given_of_find found
  exact good a (G i a old found) (E i a (alike i old own) found)

theorem Encloses.of_agrees (E : s.Encloses N P) (A : s.AgreesIn N t) : t.Encloses N P :=
  fun i a own found => E i a own ((A i own).symm.trans found)

theorem Within.agrees (W : s.Within (fun i => F i ∨ ¬ s.given i) s') :
    s.AgreesIn (fun i => ¬ (F i ∨ s'.given i ∧ ¬ s.given i)) s' := by
  intro i outside
  by_cases old : s.given i
  · exact W.same i (fun inside => inside.elim (fun own => outside (.inl own)) (fun new => new old))
  · have never : ¬ s'.given i := fun new => outside (.inr ⟨new, old⟩)
    rw [find_of_not_given old, find_of_not_given never]

theorem Matches.passing (M : s.Matches (fun i => ¬ F i) P t) (lacks : ∀ i, F i → t.find? i = none)
    (W : s.Within (fun i => F i ∨ ¬ s.given i) s')
    (E : s.Encloses (fun i => ¬ (F i ∨ s'.given i ∧ ¬ s.given i)) Q) :
    s'.Matches (fun i => ¬ (F i ∨ s'.given i ∧ ¬ s.given i)) Q (t.skip s'.next) where
  next := Nat.max_eq_right (M.next ▸ W.next)
  ahead i later := by
    rintro (own | ⟨new, _⟩)
    · exact M.ahead i (Nat.le_trans W.next later) own
    · exact absurd new (Nat.not_lt.mpr later)
  closed := E.of_agrees W.agrees
  part i := by
    change t.find? i = _ ∨ _
    by_cases inside : F i ∨ s'.given i ∧ ¬ s.given i
    · refine .inr ⟨fun outside => outside inside, ?_⟩
      rcases inside with own | ⟨_, new⟩
      · exact lacks i own
      · exact find_of_not_given (s := t) (fun old => new (Nat.lt_of_lt_of_eq old M.next))
    · rw [W.agrees i inside]
      exact .inl (M.find (fun own => inside (.inl own)))

end Store

/-! ### Regions -/

namespace Region

variable {G S T : Region}

def rest (S : Region) : Region := ⟨fun r => ¬ S.refs r, fun b => ¬ S.buffers b⟩

def join (S T : Region) : Region := ⟨fun r => S.refs r ∨ T.refs r, fun b => S.buffers b ∨ T.buffers b⟩

structure Inside (S T : Region) : Prop where
  refs : ∀ r, S.refs r → T.refs r
  buffers : ∀ b, S.buffers b → T.buffers b

def whole : Region := ⟨fun _ => True, fun _ => True⟩

def nothing : Region := ⟨fun _ => False, fun _ => False⟩

structure Alike (G S T : Region) : Prop where
  refs : ∀ r, G.refs r → (S.refs r ↔ T.refs r)
  buffers : ∀ b, G.buffers b → (S.buffers b ↔ T.buffers b)

namespace Alike

variable (A : Alike G S T)
include A

theorem rest : Alike G S.rest T.rest :=
  ⟨fun r given => not_congr (A.refs r given), fun b given => not_congr (A.buffers b given)⟩

theorem all {rs : List Ref} (given : G.all rs) (own : S.all rs) : T.all rs :=
  fun r hr => (A.refs r (given r hr)).mp (own r hr)

theorem backs {b : Backing} (given : G.Backs b) (own : S.Backs b) : T.Backs b :=
  fun address i same => (A.buffers i (given address i same)).mp (own address i same)

theorem stringIn {cell : StringCell} (given : G.StringIn cell) (own : S.StringIn cell) :
    T.StringIn cell :=
  ⟨(A.refs _ given.1).mp own.1, A.all given.2 own.2⟩

theorem peerIn {q : Peer} (given : G.PeerIn q) (own : S.PeerIn q) : T.PeerIn q where
  owner := (A.refs _ given.owner).mp own.owner
  pins o pin := (A.refs _ (given.pins o pin)).mp (own.pins o pin)
  backing := A.backs given.backing own.backing

theorem frameIn {b : Frame} (given : G.FrameIn b) (own : S.FrameIn b) : T.FrameIn b :=
  fun name value bound => A.all (given name value bound) (own name value bound)

end Alike

/-- What is there of a region refers to nothing outside of it. -/
structure Encloses (S : Region) (h : Heap) : Prop where
  contexts : h.contexts.Encloses (fun c => S.refs (.context c)) (fun ctx => S.all ctx.refs)
  vectors : h.vectors.Encloses (fun v => S.refs (.vector v)) (fun cell => S.all cell.refs)
  strings : h.strings.Encloses (fun s => S.refs (.string s)) S.StringIn
  peers : h.peers.Encloses (fun p => S.refs (.peer p)) S.PeerIn
  frames : h.frames.Encloses (fun f => S.refs (.frame f)) S.FrameIn

end Region

namespace Heap

variable {F S T : Region} {h h' g : Heap}

theorem Matches.encloses (M : h.Matches S g) : S.Encloses h :=
  ⟨M.contexts.closed, M.vectors.closed, M.strings.closed, M.peers.closed, M.frames.closed⟩

def given (h : Heap) : Region where
  refs
    | .context c => h.contexts.given c
    | .vector v => h.vectors.given v
    | .string s => h.strings.given s
    | .peer p => h.peers.given p
    | .frame f => h.frames.given f
  buffers := h.buffers.given

instance (h : Heap) (r : Ref) : Decidable (h.given.refs r) :=
  match r with
  | .context c => inferInstanceAs (Decidable (c.index < h.contexts.next))
  | .vector v => inferInstanceAs (Decidable (v.index < h.vectors.next))
  | .string s => inferInstanceAs (Decidable (s.index < h.strings.next))
  | .peer p => inferInstanceAs (Decidable (p.index < h.peers.next))
  | .frame f => inferInstanceAs (Decidable (f.index < h.frames.next))

theorem given_of_has {r : Ref} (there : h.has r = true) : h.given.refs r := by
  cases r with
  | context c => exact Store.given_of_find (has_context_iff.mp there).choose_spec
  | vector v => exact Store.given_of_find (has_vector_iff.mp there).choose_spec
  | string s => exact Store.given_of_find (has_string_iff.mp there).choose_spec
  | peer p => exact Store.given_of_find (has_peer_iff.mp there).choose_spec
  | frame f => exact Store.given_of_find (has_frame_iff.mp there).choose_spec

theorem Intact.given_encloses (I : h.Intact) (B : h.Buffered) : h.given.Encloses h where
  contexts c ctx _ found r hr := given_of_has ((I.contexts c ctx found).refs r hr)
  vectors v cell _ found r hr := given_of_has ((I.vectors v cell found).refs r hr)
  strings s cell _ found :=
    have formed := I.strings s cell found
    ⟨formed.issued, fun r hr => given_of_has (formed.refs r hr)⟩
  peers p q _ found :=
    have formed := I.peers p q found
    { owner := by
        have issued := formed.issued
        cases owner : q.owner with
        | vector v => rw [owner] at issued; exact issued
        | string s => rw [owner] at issued; exact issued
      pins := fun o pin => given_of_has (formed.refs _ (mem_peer_refs.mpr ⟨o, pin, rfl⟩))
      backing := fun a b external => Store.given_of_find (B p q a b found external).choose_spec }
  frames f b _ found name value bound r hr := given_of_has (I.frames f b name value found bound r hr)

theorem encloses_alike (E : S.Encloses h) (G : h.given.Encloses h) (A : Region.Alike h.given S T) :
    T.Encloses h where
  contexts := E.contexts.alike G.contexts (fun c old => (A.refs (.context c) old).mpr) (fun _ => A.all)
  vectors := E.vectors.alike G.vectors (fun v old => (A.refs (.vector v) old).mpr) (fun _ => A.all)
  strings := E.strings.alike G.strings (fun s old => (A.refs (.string s) old).mpr) (fun _ => A.stringIn)
  peers := E.peers.alike G.peers (fun p old => (A.refs (.peer p) old).mpr) (fun _ => A.peerIn)
  frames := E.frames.alike G.frames (fun f old => (A.refs (.frame f) old).mpr) (fun _ => A.frameIn)

/-- Two regions are the same to a heap if they are the same within what it gave out. Identities that are
still to come may be counted in. -/
theorem alike_ahead (h : Heap) (F : Region) : Region.Alike h.given F (F.join h.given.rest) where
  refs _ old := ⟨.inl, fun own => own.resolve_right (absurd old)⟩
  buffers _ old := ⟨.inl, fun own => own.resolve_right (absurd old)⟩

theorem matches_self (E : S.Encloses h) (refs : ∀ r, ¬ h.given.refs r → S.refs r)
    (buffers : ∀ b, ¬ h.given.buffers b → S.buffers b) : h.Matches S h where
  contexts := ⟨rfl, fun c later => refs (.context c) (Nat.not_lt.mpr later), E.contexts, fun _ => .inl rfl⟩
  vectors := ⟨rfl, fun v later => refs (.vector v) (Nat.not_lt.mpr later), E.vectors, fun _ => .inl rfl⟩
  strings := ⟨rfl, fun s later => refs (.string s) (Nat.not_lt.mpr later), E.strings, fun _ => .inl rfl⟩
  peers := ⟨rfl, fun p later => refs (.peer p) (Nat.not_lt.mpr later), E.peers, fun _ => .inl rfl⟩
  frames := ⟨rfl, fun f later => refs (.frame f) (Nat.not_lt.mpr later), E.frames, fun _ => .inl rfl⟩
  buffers := ⟨rfl, fun b later => buffers b (Nat.not_lt.mpr later), fun _ _ _ _ => trivial, fun _ => .inl rfl⟩

theorem whole_encloses (h : Heap) : Region.whole.Encloses h where
  contexts _ _ _ _ _ _ := trivial
  vectors _ _ _ _ _ _ := trivial
  strings _ _ _ _ := ⟨trivial, fun _ _ => trivial⟩
  peers _ _ _ _ := ⟨trivial, fun _ _ => trivial, fun _ _ _ => trivial⟩
  frames _ _ _ _ _ _ _ _ _ := trivial

/-! ### Showing the same -/

/-- What is more, objects of the region are referred to in both heaps or in neither. -/
structure Same (S : Region) (h g : Heap) : Prop extends h.AgreesIn S g where
  held : ∀ r, S.refs r → (r ∈ g.refs ↔ r ∈ h.refs)

theorem Same.mono (A : h.Same S g) (part : T.Inside S) : h.Same T g where
  contexts c own := A.contexts c (part.refs _ own)
  vectors v own := A.vectors v (part.refs _ own)
  strings s own := A.strings s (part.refs _ own)
  peers p own := A.peers p (part.refs _ own)
  frames f own := A.frames f (part.refs _ own)
  buffers b own := A.buffers b (part.buffers b own)
  held r own := A.held r (part.refs r own)

theorem AgreesIn.symm (A : h.AgreesIn S g) : g.AgreesIn S h where
  contexts c own := (A.contexts c own).symm
  vectors v own := (A.vectors v own).symm
  strings s own := (A.strings s own).symm
  peers p own := (A.peers p own).symm
  frames f own := (A.frames f own).symm
  buffers b own := (A.buffers b own).symm

/-- What refers to something outside of a region is outside as well, and it is in both heaps. -/
theorem AgreesIn.refs (A : h.AgreesIn F.rest g) (E : F.Encloses h) {r : Ref} (outside : ¬ F.refs r)
    (held : r ∈ h.refs) : r ∈ g.refs := by
  rcases mem_refs_iff.mp held with ⟨v, cell, found, hr⟩ | ⟨s, cell, found, hr⟩ | ⟨p, q, found, hr⟩ |
    ⟨c, ctx, found, hr⟩ | ⟨f, b, found, name, value, bound, hr⟩
  · have own : ¬ F.refs (.vector v) := fun inside => outside (E.vectors v cell inside found r hr)
    exact mem_refs_iff.mpr (.inl ⟨v, cell, (A.vectors v own).trans found, hr⟩)
  · have own : ¬ F.refs (.string s) := fun inside => outside ((E.strings s cell inside found).2 r hr)
    exact mem_refs_iff.mpr (.inr (.inl ⟨s, cell, (A.strings s own).trans found, hr⟩))
  · have own : ¬ F.refs (.peer p) := fun inside => by
      obtain ⟨o, pin, rfl⟩ := mem_peer_refs.mp hr
      exact outside ((E.peers p q inside found).pins o pin)
    exact mem_refs_iff.mpr (.inr (.inr (.inl ⟨p, q, (A.peers p own).trans found, hr⟩)))
  · have own : ¬ F.refs (.context c) := fun inside => outside (E.contexts c ctx inside found r hr)
    exact mem_refs_iff.mpr (.inr (.inr (.inr (.inl ⟨c, ctx, (A.contexts c own).trans found, hr⟩))))
  · have own : ¬ F.refs (.frame f) := fun inside => outside (E.frames f b inside found name value bound r hr)
    exact mem_refs_iff.mpr (.inr (.inr (.inr (.inr
      ⟨f, b, (A.frames f own).trans found, name, value, bound, hr⟩))))

theorem AgreesIn.same (A : h.AgreesIn F.rest g) (E : F.Encloses h) (E' : F.Encloses g) : h.Same F.rest g :=
  ⟨A, fun _ own => ⟨A.symm.refs E' own, A.refs E own⟩⟩

theorem AgreesIn.encloses (A : h.AgreesIn S g) (E : S.Encloses h) : S.Encloses g :=
  ⟨E.contexts.of_agrees A.contexts, E.vectors.of_agrees A.vectors, E.strings.of_agrees A.strings,
    E.peers.of_agrees A.peers, E.frames.of_agrees A.frames⟩

theorem Within.agrees_rest (W : h.Within F.rest h') : h.AgreesIn F h' where
  contexts c own := W.contexts.same c (not_not_intro own)
  vectors v own := W.vectors.same v (not_not_intro own)
  strings s own := W.strings.same s (not_not_intro own)
  peers p own := W.peers.same p (not_not_intro own)
  frames f own := W.frames.same f (not_not_intro own)
  buffers b own := W.buffers.same b (not_not_intro own)

theorem contextOf_encloses (E : S.Encloses h) {o : Object} {c : ContextId} (own : h.contextOf? o = some c)
    (inside : S.refs (.ofObject o)) : S.refs (.context c) := by
  cases o with
  | vector v =>
    obtain ⟨cell, found, rfl⟩ := Option.map_eq_some_iff.mp own
    exact E.vectors v cell inside found _ (mem_vector_refs.mpr (.inl rfl))
  | string s =>
    obtain ⟨cell, found, rfl⟩ := Option.map_eq_some_iff.mp own
    exact (E.strings s cell inside found).1

/-! ### What is made -/

def made (h h' : Heap) : Region where
  refs r := h'.given.refs r ∧ ¬ h.given.refs r
  buffers b := h'.given.buffers b ∧ ¬ h.given.buffers b

theorem alike_made (h h' : Heap) (F : Region) : Region.Alike h.given F (F.join (h.made h')) where
  refs _ old := ⟨.inl, fun inside => inside.resolve_right (fun new => new.2 old)⟩
  buffers _ old := ⟨.inl, fun inside => inside.resolve_right (fun new => new.2 old)⟩

theorem made_alike (h h' : Heap) (F : Region) :
    Region.Alike h'.given (F.join h.given.rest) (F.join (h.made h')) where
  refs _ there := or_congr_right ⟨fun new => ⟨there, new⟩, And.right⟩
  buffers _ there := or_congr_right ⟨fun new => ⟨there, new⟩, And.right⟩

instance (h h' : Heap) (r : Ref) : Decidable ((h.made h').refs r) :=
  inferInstanceAs (Decidable (h'.given.refs r ∧ ¬ h.given.refs r))

theorem Within.given (W : h.Within S h') : h.given.Inside h'.given where
  refs r old := by
    cases r with
    | context c => exact Nat.lt_of_lt_of_le old W.contexts.next
    | vector v => exact Nat.lt_of_lt_of_le old W.vectors.next
    | string s => exact Nat.lt_of_lt_of_le old W.strings.next
    | peer p => exact Nat.lt_of_lt_of_le old W.peers.next
    | frame f => exact Nat.lt_of_lt_of_le old W.frames.next
  buffers _ old := Nat.lt_of_lt_of_le old W.buffers.next

theorem Matches.given_iff (M : h.Matches S g) {r : Ref} : g.given.refs r ↔ h.given.refs r := by
  cases r with
  | context c => exact iff_of_eq (congrArg (c.index < ·) M.contexts.next)
  | vector v => exact iff_of_eq (congrArg (v.index < ·) M.vectors.next)
  | string s => exact iff_of_eq (congrArg (s.index < ·) M.strings.next)
  | peer p => exact iff_of_eq (congrArg (p.index < ·) M.peers.next)
  | frame f => exact iff_of_eq (congrArg (f.index < ·) M.frames.next)

/-! ### Passing over -/

def passing (g h : Heap) : Heap := { g with
  contexts := g.contexts.skip h.contexts.next
  vectors := g.vectors.skip h.vectors.next
  strings := g.strings.skip h.strings.next
  peers := g.peers.skip h.peers.next
  frames := g.frames.skip h.frames.next
  buffers := g.buffers.skip h.buffers.next }

structure Lacks (F : Region) (g : Heap) : Prop where
  refs : ∀ r, F.refs r → g.has r = false
  buffers : ∀ b, F.buffers b → g.buffers.find? b = none

theorem has_passing (g h : Heap) (r : Ref) : (g.passing h).has r = g.has r := by cases r <;> rfl

theorem lacks_nothing (g : Heap) : g.Lacks .nothing := ⟨fun _ => False.elim, fun _ => False.elim⟩

theorem AgreesIn.lacks (A : h.AgreesIn F g) (L : h.Lacks F) : g.Lacks F :=
  ⟨fun r own => (A.has own).trans (L.refs r own), fun b own => (A.buffers b own).trans (L.buffers b own)⟩

section
variable (M : h.Matches F.rest g) (L : g.Lacks F)
include M L

theorem Lacks.passing (h' : Heap) : (g.passing h').Lacks (F.join (h.made h')) where
  refs r inside := by
    rw [has_passing]
    rcases inside with own | ⟨_, new⟩
    · exact L.refs r own
    · exact Bool.eq_false_iff.mpr (fun there => new (M.given_iff.mp (given_of_has there)))
  buffers b inside := by
    rcases inside with own | ⟨_, new⟩
    · exact L.buffers b own
    · exact Store.find_of_not_given (s := g.buffers) (fun old => new (Nat.lt_of_lt_of_eq old M.buffers.next))

/-- What is done in a region is left out of a heap that has nothing of it. -/
theorem Matches.passing (G : h.given.Encloses h) (W : h.Within (F.join h.given.rest) h') :
    h'.Matches (F.join (h.made h')).rest (g.passing h') := by
  have E := encloses_alike M.encloses G (h.alike_made h' F).rest
  have none : ∀ {k : Kind} {α : Type} {s : Store k α} {i : Id k}, s.contains i = false → s.find? i = none :=
    fun gone => Option.not_isSome_iff_eq_none.mp (Bool.eq_false_iff.mp gone)
  exact {
    contexts := M.contexts.passing (fun c own => none (L.refs (.context c) own)) W.contexts E.contexts
    vectors := M.vectors.passing (fun v own => none (L.refs (.vector v) own)) W.vectors E.vectors
    strings := M.strings.passing (fun s own => none (L.refs (.string s) own)) W.strings E.strings
    peers := M.peers.passing (fun p own => none (L.refs (.peer p) own)) W.peers E.peers
    frames := M.frames.passing (fun f own => none (L.refs (.frame f) own)) W.frames E.frames
    buffers := M.buffers.passing L.buffers W.buffers (fun _ _ _ _ => trivial) }

end

/-! ### What is left alone -/

theorem Within.agrees (W : h.Within (F.join h.given.rest) h') :
    h.AgreesIn (F.join (h.made h')).rest h' :=
  ⟨W.contexts.agrees, W.vectors.agrees, W.strings.agrees, W.peers.agrees, W.frames.agrees,
    W.buffers.agrees⟩

theorem Lacks.encloses (L : g.Lacks F) : F.Encloses g where
  contexts c _ own found := absurd ((L.refs _ own).symm.trans (has_context_iff.mpr ⟨_, found⟩)) (by decide)
  vectors v _ own found := absurd ((L.refs _ own).symm.trans (has_vector_iff.mpr ⟨_, found⟩)) (by decide)
  strings s _ own found := absurd ((L.refs _ own).symm.trans (has_string_iff.mpr ⟨_, found⟩)) (by decide)
  peers p _ own found := absurd ((L.refs _ own).symm.trans (has_peer_iff.mpr ⟨_, found⟩)) (by decide)
  frames f _ own found := absurd ((L.refs _ own).symm.trans (has_frame_iff.mpr ⟨_, found⟩)) (by decide)

end Heap
end VectorHeap
