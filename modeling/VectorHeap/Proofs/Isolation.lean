import Mathlib.Logic.Function.Basic
import Mathlib.Logic.Relation
import VectorHeap.Proofs.Zones

/-! Copies of nested lists. A copy marks what it holds, one level only, and so a list and its copy go
on to hold the same vectors further down. A write along a path copies what is shared on its way, which
marks the next level. So it never shows on the other side. -/
namespace VectorHeap

namespace Op

def readPath : List Nat → VectorId → Nat → Op Elem
  | [], v, i => getElem v i
  | j :: path, v, i => do
    match ← getElem v i with
    | .list u => readPath path u j
    | e => fail (.representationMismatch .list e.type)

/-- Writes along the indices `i :: path`, and on the way back puts each vector that was written in its
place. Answers what the root is then. -/
def writePath : List Nat → VectorId → Nat → Elem → Op VectorId
  | [], v, i, e => do
    let w ← writable v
    setElem w i e
    return w
  | j :: path, v, i, e => do
    let w ← writable v
    match ← getElem w i with
    | .list u =>
      let u' ← writePath path u j e
      setElem w i (.list u')
      return w
    | other => fail (.representationMismatch .list other.type)

end Op

open Op

namespace Heap

variable {h h' : Heap} {c : ContextId} {z z' : Zone} {σ τ : Side} {v : VectorId} {e : Elem}

/-! ### Writes along a path -/

/-- A write along a path makes its way the side's own, down to what is written. It is not stopped by
what is shared, and if something else stops it, what it copied so far is there in vain. -/
theorem Zoned.writePath (Z : h.Zoned c z) (here : z.has v)
    (ready : z.owner v = some σ ∨ h.IsShared v) (leaf : e.type ≠ .list)
    (alive : ∀ o, e.object? = some o → h.isAlive o = true) (path : List Nat) (i : Nat) :
    Outcome (writePath path v i e) h
      (fun w h' => ∃ z', Leads c σ z h z' h' ∧ z'.owner w = some σ)
      (fun f h' => Distinct f → f ≠ .panic .sharedWrite ∧ ∃ z', Leads c σ z h z' h') := by
  induction path generalizing h z v i with
  | nil =>
    obtain ⟨w, h₁, z₁, run, L, mine, kept⟩ := Z.writable here ready
    have W := L.zoned.set mine (fun o ho => kept o (alive o ho))
      (fun u same => absurd (congrArg Elem.type same) leaf) i
    refine Outcome.bind_of_ok run (Outcome.bind (W.mono (fun _ _ => id) ?_) ?_)
    · intro f h₂ stop distinct
      obtain ⟨fault, rfl⟩ := stop distinct
      exact ⟨fault, z₁, L⟩
    · exact fun _ h₂ L' => .of_ok rfl ⟨z₁, L.trans L', mine⟩
  | cons j path ih =>
    obtain ⟨w, h₁, z₁, run, L, mine, kept⟩ := Z.writable here ready
    obtain ⟨here₁, s, P⟩ := L.zoned.owned w σ mine
    have read := (L.zoned.here w here₁).getElem L.zoned.intact L.zoned.names P.shows i
    refine Outcome.bind_of_ok run ?_
    cases slot : s.elements[i]? with
    | none =>
      rw [slot] at read
      exact .of_error (bind_of_error read) (fun _ => ⟨by simp, z₁, L⟩)
    | some e' =>
      rw [slot] at read
      refine Outcome.bind_of_ok read ?_
      cases e' with
      | list u =>
        -- The list below is made the side's own first; what comes back goes into this one, which
        -- is still the side's.
        have child : h₁.Child w u := ⟨s, P.shows, List.mem_of_getElem? slot⟩
        have inner := ih L.zoned (L.zoned.closed w u here₁ child) (L.zoned.down w u σ mine child)
          (fun o ho => kept o (alive o ho)) j
        refine Outcome.bind (inner.mono (fun _ _ => id) ?_) ?_
        · intro f h₂ stop distinct
          obtain ⟨fault, z₂, L'⟩ := stop distinct
          exact ⟨fault, z₂, L.trans L'⟩
        · rintro u' h₂ ⟨z₂, L', mine'⟩
          have still : z₂.owner w = some σ := (L'.grows w here₁).2.trans mine
          have there := (L'.zoned.here u' (L'.zoned.owned u' σ mine').1).there
          have W := L'.zoned.set (e := .list u') still (fun o ho => by cases ho; exact there)
            (fun x same => by cases same; exact mine') i
          refine Outcome.bind (W.mono (fun _ _ => id) ?_) ?_
          · intro f h₃ stop distinct
            obtain ⟨fault, rfl⟩ := stop distinct
            exact ⟨fault, z₂, L.trans L'⟩
          · exact fun _ h₃ L'' => .of_ok rfl ⟨z₂, (L.trans L').trans L'', still⟩
      | _ => exact .of_error rfl (fun _ => ⟨by simp, z₁, L⟩)

/-! ### Reads along a path -/

theorem readPath_alike {P : VectorId → Prop} (I : h.Intact) (N : h.NamesIn c) (I' : h'.Intact)
    (N' : h'.NamesIn c) (same : ∀ x, P x → h.Local c x ∧ h'.Local c x ∧ h.Alike x h')
    (closed : ∀ y x, P y → h.Child y x → P x) {v : VectorId} (there : P v) (path : List Nat)
    (i : Nat) : (readPath path v i).result h' = (readPath path v i).result h := by
  induction path generalizing v i with
  | nil =>
    obtain ⟨L, L', s, state, shows, _, shows'⟩ := same v there
    simp only [readPath, result, L.getElem I N shows, L'.getElem I' N' shows',
      show ({ s with sharing := state } : Sequence).elements = s.elements from rfl]
    cases s.elements[i]? <;> rfl
  | cons j path ih =>
    obtain ⟨L, L', s, state, shows, _, shows'⟩ := same v there
    have read := L.getElem I N shows i
    have read' := L'.getElem I' N' shows' i
    rw [show ({ s with sharing := state } : Sequence).elements = s.elements from rfl] at read'
    cases slot : s.elements[i]? with
    | none =>
      rw [slot] at read read'
      simp only [readPath, result, bind_of_error read, bind_of_error read']
    | some e =>
      rw [slot] at read read'
      cases e with
      | list u =>
        have down := ih (closed v u there ⟨s, shows, List.mem_of_getElem? slot⟩) j
        simp only [result, readPath, bind_of_ok read, bind_of_ok read'] at down ⊢
        exact down
      | _ => simp only [readPath, result, bind_of_ok read, bind_of_ok read', fail_run]

/-- What a side does not own reads as before. -/
theorem Leads.readPath (L : Leads c σ z h z' h') (Z : h.Zoned c z) (here : z.has v)
    (other : z.owner v ≠ some σ) (path : List Nat) (i : Nat) :
    (readPath path v i).result h' = (readPath path v i).result h := by
  refine readPath_alike (P := fun x => z.has x ∧ z.owner x ≠ some σ) Z.intact Z.names
    L.zoned.intact L.zoned.names (fun x there => ?_) (fun y x there child => ?_) ⟨here, other⟩ path i
  · exact ⟨Z.here x there.1, L.zoned.here x (L.grows x there.1).1, L.keeps x there.1 there.2⟩
  · exact ⟨Z.closed y x there.1 child, fun own => there.2 (Z.up y x σ there.1 child own)⟩

/-! ### Runs -/

/-- Two roots of which each one can be written without the other one. -/
structure Apart (h : Heap) (c : ContextId) (z : Zone) (r : Side → VectorId) : Prop where
  zoned : h.Zoned c z
  here : ∀ σ, z.has (r σ)
  ready : ∀ σ, z.owner (r σ) = some σ ∨ h.IsShared (r σ)

theorem Apart.owner_ne {r : Side → VectorId} (A : h.Apart c z r) (other : σ ≠ τ) :
    z.owner (r τ) ≠ some σ := by
  rcases A.ready τ with own | shared
  · rw [own]
    exact fun same => other (Option.some.inj same).symm
  · rw [A.zoned.unowned shared]
    exact nofun

theorem Leads.ready (L : Leads c σ z h z' h') (Z : h.Zoned c z) (here : z.has v)
    (ready : z.owner v = some τ ∨ h.IsShared v) : z'.owner v = some τ ∨ h'.IsShared v := by
  rcases ready with own | shared
  · exact .inl ((L.grows v here).2.trans own)
  · refine .inr ((L.keeps v here ?_).isShared shared)
    rw [Z.unowned shared]
    exact nofun

theorem Apart.shed {r : Side → VectorId} (A : h.Apart c z r) (S : h.Sheds h') (U : h.Unlists h')
    (there : ∀ σ, h'.has (.vector (r σ)) = true) :
    h'.Apart c (z.cut h') r ∧ ∀ σ path i,
      (readPath path (r σ) i).result h' = (readPath path (r σ) i).result h := by
  obtain ⟨Z', alike⟩ := A.zoned.shed S U
  refine ⟨⟨Z', fun σ => ⟨A.here σ, there σ⟩, fun σ => ?_⟩, fun σ path i => ?_⟩
  · rw [Zone.owner_cut, if_pos (there σ)]
    exact (A.ready σ).imp_right (alike _ (A.here σ) (there σ)).isShared
  · refine readPath_alike (P := (z.cut h').has) A.zoned.intact A.zoned.names Z'.intact Z'.names
      (fun x here => ⟨A.zoned.here x here.1, Z'.here x here, alike x here.1 here.2⟩)
      (fun y x here child => Z'.closed y x here ?_) ⟨A.here σ, there σ⟩ path i
    exact ((alike y here.1 here.2).child x).mpr child

end Heap

/-- A step of two roots: a write through one of them, which may be stopped on the way, or some
housekeeping that spares them. -/
inductive PathStep (r : Side → VectorId) (h : Heap) :
    Option Side → (Side → VectorId) → Heap → Prop
  | write {h' : Heap} (σ : Side) (path : List Nat) (i : Nat) (e : Elem) (w : VectorId)
      (leaf : e.type ≠ .list) (alive : ∀ o, e.object? = some o → h.isAlive o = true)
      (run : writePath path (r σ) i e h = .ok w h') :
    PathStep r h (some σ) (Function.update r σ w) h'
  | stop {h' : Heap} (σ : Side) (path : List Nat) (i : Nat) (e : Elem) (f : Fault)
      (leaf : e.type ≠ .list) (alive : ∀ o, e.object? = some o → h.isAlive o = true)
      (run : writePath path (r σ) i e h = .error f h') (distinct : Heap.Distinct f) :
    PathStep r h (some σ) r h'
  | bury (roots : List Ref) (kept : ∀ σ, .vector (r σ) ∈ roots) (x : Ref)
      (dead : x ∈ h.dead roots) : PathStep r h none r (h.bury x)
  | work (c : ContextId) : PathStep r h none r (h.work c)
  | shutdown (c : ContextId) : PathStep r h none r (h.shutdown c)

inductive PathRun (r₀ : Side → VectorId) (h₀ : Heap) : (Side → VectorId) → Heap → Prop
  | start : PathRun r₀ h₀ r₀ h₀
  | step {r r' : Side → VectorId} {h h' : Heap} {σ : Option Side} (run : PathRun r₀ h₀ r h)
      (last : PathStep r h σ r' h') : PathRun r₀ h₀ r' h'

namespace Heap

variable {h h' : Heap} {c : ContextId} {z : Zone} {r r' : Side → VectorId}

/-- Each step leaves the roots apart, and the root that is not written reads as before. -/
theorem Apart.step {σ : Option Side} (A : h.Apart c z r) (s : PathStep r h σ r' h') :
    (∃ z', h'.Apart c z' r') ∧ ∀ τ, σ ≠ some τ → r' τ = r τ ∧ ∀ path i,
      (readPath path (r τ) i).result h' = (readPath path (r τ) i).result h := by
  have Z := A.zoned
  cases s with
  | write σ path i e w leaf alive run =>
    obtain ⟨z', L, mine⟩ := (Z.writePath (A.here σ) (A.ready σ) leaf alive path i).ok run
    refine ⟨⟨z', L.zoned, fun τ => ?_, fun τ => ?_⟩, fun τ other => ?_⟩
    · by_cases same : τ = σ
      · subst same
        rw [Function.update_self]
        exact (L.zoned.owned w τ mine).1
      · rw [Function.update_of_ne same]
        exact (L.grows _ (A.here τ)).1
    · by_cases same : τ = σ
      · subst same
        rw [Function.update_self]
        exact .inl mine
      · rw [Function.update_of_ne same]
        exact L.ready Z (A.here τ) (A.ready τ)
    · have other : σ ≠ τ := fun same => other (congrArg some same)
      exact ⟨Function.update_of_ne other.symm _ _,
        L.readPath Z (A.here τ) (A.owner_ne other)⟩
  | stop σ path i e f leaf alive run distinct =>
    obtain ⟨_, z', L⟩ := (Z.writePath (A.here σ) (A.ready σ) leaf alive path i).error run distinct
    refine ⟨⟨z', L.zoned, fun τ => (L.grows _ (A.here τ)).1,
      fun τ => L.ready Z (A.here τ) (A.ready τ)⟩, fun τ other => ⟨rfl, ?_⟩⟩
    exact L.readPath Z (A.here τ) (A.owner_ne (fun same => other (congrArg some same)))
  | bury roots kept x dead =>
    obtain ⟨_, root, unheld, _⟩ := mem_dead_iff.mp dead
    have other : ∀ σ, x ≠ .vector (r σ) := fun σ same => root (same ▸ kept σ)
    obtain ⟨A', same⟩ := A.shed (bury_sheds Z.intact unheld) (bury_unlists Z.intact x) (fun σ => by
      rw [has, bury_vectors]
      exact (has_without (other σ)).trans (Z.here _ (A.here σ)).there)
    exact ⟨⟨_, A'⟩, fun τ _ => ⟨rfl, same τ⟩⟩
  | work d =>
    obtain ⟨A', same⟩ := A.shed (work_sheds Z.intact d) (work_unlists h d) (fun σ => by
      rw [has, work_vectors]
      exact (Z.here _ (A.here σ)).there)
    exact ⟨⟨_, A'⟩, fun τ _ => ⟨rfl, same τ⟩⟩
  | shutdown d =>
    obtain ⟨A', same⟩ := A.shed (shutdown_sheds Z.intact d) (shutdown_unlists h d)
      (fun σ => (Z.here _ (A.here σ)).there)
    exact ⟨⟨_, A'⟩, fun τ _ => ⟨rfl, same τ⟩⟩

theorem Apart.run (A : h.Apart c z r) (run : PathRun r h r' h') : ∃ z', h'.Apart c z' r' := by
  induction run with
  | start => exact ⟨z, A⟩
  | step _ last ih =>
    obtain ⟨z', A'⟩ := ih
    exact (A'.step last).1

/-! ### A list and its copy -/

theorem foreign_of_list (I : h.Intact) {l : VectorId} {s : Sequence}
    (shows : h.sequence? l = some s) (list : s.type = .list) : h.foreign? l = none := by
  obtain ⟨cell, found, rfl⟩ := sequence_eq_some_iff.mp shows
  refine Option.eq_none_iff_forall_not_mem.mpr (fun b behind => ?_)
  obtain ⟨cell', p, q, a, found', hp, hq, external⟩ := foreign_eq_some_iff.mp behind
  cases found.symm.trans found'
  have F := I.vectors l cell found
  cases hb : cell.buffer with
  | some b' => exact absurd (((F.managed b' hb).bare p q hp hq).1.symm.trans external) (by simp)
  | none =>
    obtain ⟨p', q', hp', hq', M⟩ := F.native hb
    cases hp.symm.trans hp'
    cases hq.symm.trans hq'
    have indirect : cell.type.isIndirect = true := by
      rw [show cell.type = .list from list]
      rfl
    exact M.backed.not_external indirect a b external

end Heap

def Side.roots (l d : VectorId) : Side → VectorId
  | .original => l
  | .copy => d

namespace Heap

variable {h h' : Heap} {c : ContextId}

/-- A list that does not reach itself and its copy can be written apart. -/
theorem apart_of_copied {l d : VectorId} {s : Sequence} (I : h.Intact) (N : h.NamesIn c)
    (shows : h.sequence? l = some s) (list : s.type = .list)
    (acyclic : ¬ Relation.TransGen h.Child l l)
    (own : ∀ x, Relation.ReflTransGen h.Child l x → h.Local c x) (C : h.Copied c s d h') :
    ∃ z, h'.Apart c z (Side.roots l d) := by
  let z₀ : Zone := ⟨Relation.ReflTransGen h.Child l, fun _ => none⟩
  have Z₀ : h.Zoned c z₀ :=
    { intact := I, names := N, here := own, closed := fun _ _ => .tail, up := nofun, down := nofun,
      owned := nofun }
  have root : z₀.has l := .refl
  have L := Z₀.leads_copy root shows C (fun _ _ => rfl) .copy
  let z₁ := (z₀.add d).claim d .copy
  have Z₁ : h'.Zoned c z₁ := L.zoned
  have alike : ∀ x, z₀.has x → h.Alike x h' := fun x there => L.keeps x there nofun
  have unmarked : .list l ∉ s.elements := fun mem => acyclic (.single ⟨s, shows, mem⟩)
  have fresh : l ≠ d := (own l .refl).ne_copy C
  obtain ⟨same, foreign⟩ := C.moves.untouched I unmarked (fun _ _ => id) shows
  have copied : z₁.owner d = some .copy := if_pos rfl
  by_cases shared : h'.IsShared l
  · refine ⟨z₁, Z₁, fun σ => ?_, fun σ => ?_⟩
    · cases σ
      · exact .inl root
      · exact .inr rfl
    · cases σ
      · exact .inr shared
      · exact .inl copied
  · have P : h'.Private l s :=
      ⟨same, Bool.eq_false_iff.mpr (fun full => shared ⟨s, same, eq_of_beq full⟩), .inr list,
        foreign.trans (foreign_of_list I shows list)⟩
    have unheld : ∀ y, z₁.has y → ¬ h'.Child y l := by
      rintro y (there | rfl) child
      · exact acyclic (Relation.TransGen.tail' there (((alike y there).child l).mp child))
      · exact unmarked (C.of_child child)
    have marked : ∀ u, h'.Child l u → h'.IsShared u := fun u child =>
      C.marked u ((child_iff same).mp child)
    refine ⟨z₁.claim l .original, Z₁.claim (.inl root) P unheld marked .original, fun σ => ?_,
      fun σ => ?_⟩
    · cases σ
      · exact .inl root
      · exact .inr rfl
    · cases σ
      · exact .inl (if_pos rfl)
      · exact .inl ((if_neg fresh.symm).trans copied)

theorem reach_of_older {P : VectorId → Prop} {l : VectorId} (root : P l)
    (older : ∀ y x, P y → h.Child y x → P x ∧ x.index < y.index) :
    ¬ Relation.TransGen h.Child l l ∧ ∀ x, Relation.ReflTransGen h.Child l x → P x := by
  have reach : ∀ x, Relation.ReflTransGen h.Child l x → P x ∧ x.index ≤ l.index := by
    intro x way
    induction way with
    | refl => exact ⟨root, Nat.le_refl _⟩
    | tail _ child ih =>
      obtain ⟨there, less⟩ := older _ _ ih.1 child
      exact ⟨there, Nat.le_of_lt (Nat.lt_of_lt_of_le less ih.2)⟩
  refine ⟨fun way => ?_, fun x way => (reach x way).1⟩
  obtain ⟨y, way, child⟩ := Relation.TransGen.tail'_iff.mp way
  obtain ⟨there, upper⟩ := reach y way
  exact absurd (older y l there child).2 (Nat.not_lt.mpr upper)

theorem reach_of_nested
    (leaf : h.sequence? ⟨0⟩ = some ⟨.int, [.int 1], 1, true, .temporary⟩)
    (inner : h.sequence? ⟨1⟩ = some ⟨.list, [.list ⟨0⟩], 1, true, .temporary⟩)
    (outer : h.sequence? ⟨2⟩ = some ⟨.list, [.list ⟨1⟩], 1, true, .temporary⟩)
    (mine : ∀ x, x = ⟨0⟩ ∨ x = ⟨1⟩ ∨ x = ⟨2⟩ → h.contextOf? (.vector x) = some c) :
    ¬ Relation.TransGen h.Child ⟨2⟩ ⟨2⟩ ∧
      ∀ x, Relation.ReflTransGen h.Child ⟨2⟩ x → h.Local c x := by
  obtain ⟨acyclic, reached⟩ := reach_of_older (h := h) (l := ⟨2⟩)
    (P := fun x => x = ⟨0⟩ ∨ x = ⟨1⟩ ∨ x = ⟨2⟩) (by simp) (by
      rintro y x (rfl | rfl | rfl) child
      · exact absurd ((child_iff leaf).mp child) (by simp [Sequence.elements])
      · cases List.mem_singleton.mp ((child_iff inner).mp child)
        exact ⟨by simp, by decide⟩
      · cases List.mem_singleton.mp ((child_iff outer).mp child)
        exact ⟨by simp, by decide⟩)
  refine ⟨acyclic, fun x way => ⟨mine x (reached x way), fun _ s shows e held o object => ?_⟩⟩
  rcases reached x way with rfl | rfl | rfl
  · cases leaf.symm.trans shows
    cases List.mem_singleton.mp held
    cases object
  · cases inner.symm.trans shows
    cases List.mem_singleton.mp held
    cases object
    exact mine ⟨0⟩ (by simp)
  · cases outer.symm.trans shows
    cases List.mem_singleton.mp held
    cases object
    exact mine ⟨1⟩ (by simp)

/-- After any run in which the context registered no handle twice and no peer of a live object was released
by hand, a list that does not reach itself, over vectors of that context only, can be copied. The copy is a
fresh managed vector of the same elements, and the lists among them are shared. However the list and its
copy are written along paths from then on, no write meets a vector that is shared, and none shows through
the root that was not written. -/
theorem copy_isolates {supply : Nat → Nat → Option Address} {past : List Heap} {l : VectorId} {s : Sequence}
    (run : RunIn c { supply } past h) (shows : h.sequence? l = some s) (list : s.type = .list)
    (acyclic : ¬ Relation.TransGen h.Child l l)
    (own : ∀ x, Relation.ReflTransGen h.Child l x → h.Local c x) :
    ∃ d h₁ t, Op.copy l h = .ok d h₁ ∧
      (h.has (.vector d) = false ∧ h₁.isManaged d = true ∧ h₁.sequence? d = some t ∧
        t.type = .list ∧ t.sharing = .temporary ∧ t.length = s.length ∧ t.capacity = s.length ∧
        t.elements = s.elements ∧ ∀ x, .list x ∈ s.elements → h₁.IsShared x) ∧
      ∀ r h₂, PathRun (Side.roots l d) h₁ r h₂ →
        (∀ σ path i e, e.type ≠ .list → (∀ o, e.object? = some o → h₂.isAlive o = true) →
          (writePath path (r σ) i e).result h₂ ≠ .error (.panic .sharedWrite)) ∧
        ∀ σ r' h₃, PathStep r h₂ σ r' h₃ → ∀ τ, σ ≠ some τ → r' τ = r τ ∧ ∀ path i,
          (readPath path (r τ) i).result h₃ = (readPath path (r τ) i).result h₂ := by
  have start := intact_of_supply supply
  have I := run.intact start
  have N := run.namesIn start (namesIn_of_supply supply c)
  obtain ⟨d, h₁, copy, C⟩ := (own l .refl).copy I N shows
  obtain ⟨z, A⟩ := apart_of_copied I N shows list acyclic own C
  obtain ⟨complete, made⟩ := C.made
  have count : s.elements.length = s.length := by
    obtain ⟨cell, found, rfl⟩ := sequence_eq_some_iff.mp shows
    have F := I.vectors l cell found
    rw [Sequence.elements, List.length_take]
    exact Nat.min_eq_left F.length_le_elements
  refine ⟨d, h₁, _, copy, ⟨made.new, C.managed, made.sequence, list, rfl, rfl, count, ?_, C.marked⟩,
    fun r h₂ writes => ?_⟩
  · rw [Sequence.elements, ← count]
    exact List.take_length
  · obtain ⟨z₂, A₂⟩ := A.run writes
    refine ⟨fun σ path i e leaf alive stop => ?_, fun σ r' h₃ step => (A₂.step step).2⟩
    have W := A₂.zoned.writePath (A₂.here σ) (A₂.ready σ) leaf alive path i
    exact (W.error (Op.run_of_error stop) (fun k same => by cases same)).1 rfl

/-- A list that holds a list that holds a plain vector, and a write two levels below it. The copy
shows what was there. -/
theorem copy_isolates_nested :
    ∃ past h s, RunIn ⟨0⟩ {} past h ∧ h.sequence? ⟨2⟩ = some s ∧ s.type = .list ∧
      ¬ Relation.TransGen h.Child ⟨2⟩ ⟨2⟩ ∧
      (∀ x, Relation.ReflTransGen h.Child ⟨2⟩ x → h.Local ⟨0⟩ x) ∧
      ∃ d h₁ h₂, Op.copy ⟨2⟩ h = .ok d h₁ ∧ writePath [0, 0] ⟨2⟩ 0 (.int 5) h₁ = .ok ⟨2⟩ h₂ ∧
        (readPath [0, 0] ⟨2⟩ 0).result h₂ = .ok (.int 5) ∧
        (readPath [0, 0] d 0).result h₂ = .ok (.int 1) := by
  let h₁ : Heap := (Call.newContext .default).op.after {}
  let h₂ : Heap := (Call.newVector ⟨0⟩ .int [.int 1]).op.after h₁
  let h₃ : Heap := (Call.newVector ⟨0⟩ .list [.list ⟨0⟩]).op.after h₂
  let h₄ : Heap := (Call.newVector ⟨0⟩ .list [.list ⟨1⟩]).op.after h₃
  have run : Run Distinct {} [h₃, h₂, h₁, {}] h₄ := by
    refine (((Run.start.step ?_).step ?_).step ?_).step ?_
    · exact .answer (.newContext .default) ⟨by decide, by simp⟩ rfl
    · exact .answer (.newVector ⟨0⟩ .int [.int 1]) ⟨by decide +kernel, by simp⟩
        (Op.run_of_ok (by decide +kernel))
    · exact .answer (.newVector ⟨0⟩ .list [.list ⟨0⟩]) ⟨by decide +kernel, by simp⟩
        (Op.run_of_ok (by decide +kernel))
    · exact .answer (.newVector ⟨0⟩ .list [.list ⟨1⟩]) ⟨by decide +kernel, by simp⟩
        (Op.run_of_ok (by decide +kernel))
  have outer : h₄.sequence? ⟨2⟩ = some ⟨.list, [.list ⟨1⟩], 1, true, .temporary⟩ := by
    decide +kernel
  obtain ⟨acyclic, own⟩ := reach_of_nested (h := h₄) (c := ⟨0⟩) (by decide +kernel)
    (by decide +kernel) outer (by rintro x (rfl | rfl | rfl) <;> decide +kernel)
  obtain ⟨d, h₅, t, copy, -, writes⟩ :=
    copy_isolates (RunIn.of_run (c := ⟨0⟩) run) outer rfl acyclic own
  have made : Op.copy ⟨2⟩ h₄ = .ok ⟨3⟩ ((Op.copy ⟨2⟩).after h₄) := Op.run_of_ok (by decide +kernel)
  obtain ⟨rfl, rfl⟩ := EStateM.Result.ok.inj (copy.symm.trans made)
  let h₅ : Heap := (Op.copy ⟨2⟩).after h₄
  let h₆ : Heap := (writePath [0, 0] ⟨2⟩ 0 (.int 5)).after h₅
  have write : writePath [0, 0] ⟨2⟩ 0 (.int 5) h₅ = .ok ⟨2⟩ h₆ := Op.run_of_ok (by decide +kernel)
  obtain ⟨-, step⟩ := writes _ _ .start
  have plain : ∀ o, (Elem.int 5).object? = some o → h₅.isAlive o = true :=
    fun o object => by cases object
  obtain ⟨-, apart⟩ := step _ _ _ (.write .original [0, 0] 0 (.int 5) ⟨2⟩ (by decide) plain write)
    .copy (by decide)
  have before : (readPath [0, 0] ⟨3⟩ 0).result h₅ = .ok (.int 1) := by decide +kernel
  exact ⟨_, h₄, _, RunIn.of_run run, outer, rfl, acyclic, own, ⟨3⟩, h₅, h₆, copy, write,
    by decide +kernel, (apart [0, 0] 0).trans before⟩

/-- A handle that is drawn twice stops a write on its way up, and by then an inner list of the copy
finds what was to be put in place. -/
theorem copy_shows_refused :
    ∃ past h s, Run (fun _ => True) {} past h ∧ h.sequence? ⟨2⟩ = some s ∧ s.type = .list ∧
      ¬ Relation.TransGen h.Child ⟨2⟩ ⟨2⟩ ∧
      (∀ x, Relation.ReflTransGen h.Child ⟨2⟩ x → h.Local ⟨0⟩ x) ∧
      ∃ d h₁ h₂, Op.copy ⟨2⟩ h = .ok d h₁ ∧ (readPath [0, 0] d 0).result h₁ = .ok (.int 1) ∧
        writePath [0, 0] ⟨2⟩ 0 (.int 5) h₁ = .error (.panic (.registeredTwice ⟨1⟩)) h₂ ∧
        (readPath [0, 0] d 0).result h₂ = .ok (.list ⟨6⟩) := by
  let h₁ : Heap := (Call.newContext { handles := ⟨1, 0x4000000000000000⟩ }).op.after {}
  let h₂ : Heap := (Call.newVector ⟨0⟩ .int [.int 1]).op.after h₁
  let h₃ : Heap := (Call.newVector ⟨0⟩ .list [.list ⟨0⟩]).op.after h₂
  let h₄ : Heap := (Call.newVector ⟨0⟩ .list [.list ⟨1⟩]).op.after h₃
  let h₅ : Heap := (Call.promote ⟨1⟩).op.after h₄
  let h₆ : Heap := (Call.promote ⟨2⟩).op.after h₅
  let h₇ : Heap := (Call.newVector ⟨0⟩ .int [.int 9]).op.after h₆
  let h₈ : Heap := (Call.ensureHandle (.vector ⟨3⟩)).op.after h₇
  have run : Run (fun _ => True) {} [h₇, h₆, h₅, h₄, h₃, h₂, h₁, {}] h₈ := by
    refine (((((((Run.start.step ?_).step ?_).step ?_).step ?_).step ?_).step ?_).step ?_).step ?_
    · exact .answer (.newContext { handles := ⟨1, 0x4000000000000000⟩ }) ⟨by decide, by simp⟩ rfl
    · exact .answer (.newVector ⟨0⟩ .int [.int 1]) ⟨by decide +kernel, by simp⟩
        (Op.run_of_ok (by decide +kernel))
    · exact .answer (.newVector ⟨0⟩ .list [.list ⟨0⟩]) ⟨by decide +kernel, by simp⟩
        (Op.run_of_ok (by decide +kernel))
    · exact .answer (.newVector ⟨0⟩ .list [.list ⟨1⟩]) ⟨by decide +kernel, by simp⟩
        (Op.run_of_ok (by decide +kernel))
    · exact .answer (.promote ⟨1⟩) ⟨by decide +kernel, by simp⟩ (Op.run_of_ok (by decide +kernel))
    · exact .answer (.promote ⟨2⟩) ⟨by decide +kernel, by simp⟩ (Op.run_of_ok (by decide +kernel))
    · exact .answer (.newVector ⟨0⟩ .int [.int 9]) ⟨by decide +kernel, by simp⟩
        (Op.run_of_ok (by decide +kernel))
    · exact .answer (.ensureHandle (.vector ⟨3⟩)) ⟨by decide +kernel, by simp⟩
        (Op.run_of_ok (by decide +kernel))
  have outer : h₈.sequence? ⟨2⟩ = some ⟨.list, [.list ⟨1⟩], 1, true, .temporary⟩ := by
    decide +kernel
  obtain ⟨acyclic, own⟩ := reach_of_nested (h := h₈) (c := ⟨0⟩) (by decide +kernel)
    (by decide +kernel) outer (by rintro x (rfl | rfl | rfl) <;> decide +kernel)
  let h₉ : Heap := (Op.copy ⟨2⟩).after h₈
  exact ⟨_, h₈, _, run, outer, rfl, acyclic, own, ⟨4⟩, h₉,
    (writePath [0, 0] ⟨2⟩ 0 (.int 5)).after h₉, Op.run_of_ok (by decide +kernel),
    by decide +kernel, Op.run_of_error (by decide +kernel), by decide +kernel⟩

end Heap
end VectorHeap
