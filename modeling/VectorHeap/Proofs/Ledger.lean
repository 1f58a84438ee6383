import VectorHeap.Proofs.Tracking

/-! Ledgers: what names would hold if each had contents of its own. A heap agrees with a ledger when
its names show just that, and then it knows which vectors are behind more than one name. -/
namespace VectorHeap

structure Content where
  type : ElemType
  elements : List Elem
deriving DecidableEq

def Content.set (t : Content) (i : Nat) (e : Elem) : Except Fault Content :=
  if e.type ≠ t.type then .error (.error (.representationMismatch t.type e.type))
  else if i < t.elements.length then .ok { t with elements := t.elements.set i e }
  else .error (.error (.indexOutOfBounds i t.elements.length))

def Sequence.content (s : Sequence) : Content := ⟨s.type, s.elements⟩

/-- A write to a sequence that is not shared is a write to its content. -/
theorem Sequence.content_set {s : Sequence} (window : s.length ≤ s.capacity)
    (unshared : s.sharing.isShared = false) (i : Nat) (e : Elem) (missing : Bool) :
    s.content.set i e = (s.set i e missing).map Sequence.content := by
  have length : s.elements.length = s.length := by
    rw [elements, List.length_take]
    exact Nat.min_eq_left window
  unfold Sequence.set Content.set
  simp only [content, length, unshared, Bool.false_eq_true, if_false]
  by_cases typed : e.type ≠ s.type
  · simp only [if_pos typed, Except.map]
  · by_cases lt : i < s.length
    · simp only [if_neg typed, if_pos lt, Except.map, content, store, elements, List.take_set]
    · simp only [if_neg typed, if_neg lt, Except.map]

abbrev Ledger := FrameId → String → Option Content

namespace Ledger

def bind (l : Ledger) (f : FrameId) (x : String) (t : Option Content) : Ledger :=
  fun g y => if g = f ∧ y = x then t else l g y

/-- One element of what a name holds changes. -/
def modify (l : Ledger) (f : FrameId) (x : String) (i : Nat) (e : Elem) :
    Except Fault Unit × Ledger :=
  match l f x with
  | none => (.error .dead, l)
  | some t =>
    match t.set i e with
    | .ok t' => (.ok (), l.bind f x (some t'))
    | .error fault => (.error fault, l)

theorem bind_congr {l l' : Ledger} {f : FrameId} {x : String}
    (same : ∀ g y, ¬ (g = f ∧ y = x) → l g y = l' g y) (t : Option Content) :
    l.bind f x t = l'.bind f x t := by
  funext g y
  unfold bind
  split
  · rfl
  · rename_i other
    exact same g y other

theorem modify_of_error {l : Ledger} {f : FrameId} {x : String} {i : Nat} {e : Elem} {fault : Fault}
    (refused : (l.modify f x i e).1 = .error fault) : (l.modify f x i e).2 = l := by
  cases held : l f x with
  | none => simp only [modify, held]
  | some t =>
    cases set : t.set i e with
    | ok t' =>
      simp only [modify, held, set] at refused
      exact absurd refused (by simp)
    | error fault' => simp only [modify, held, set]

theorem modify_elsewhere (l : Ledger) {f g : FrameId} {x y : String} (other : ¬ (g = f ∧ y = x))
    (i : Nat) (e : Elem) : (l.modify f x i e).2 g y = l g y := by
  cases held : l f x with
  | none => simp only [modify, held]
  | some t => cases set : t.set i e <;> simp only [modify, held, set, bind, if_neg other]

theorem modify_unshared (l : Ledger) (f : FrameId) (x : String) (i : Nat) (e : Elem) :
    (l.modify f x i e).1 ≠ .error (.panic .sharedWrite) := by
  cases held : l f x with
  | none => simp [modify, held]
  | some t =>
    by_cases typed : e.type ≠ t.type
    · simp [modify, held, Content.set, typed]
    · by_cases lt : i < t.elements.length <;> simp [modify, held, Content.set, typed, lt]

end Ledger

namespace Heap

variable {h h' : Heap} {c : ContextId} {l l' : Ledger} {f : FrameId} {x : String} {v : VectorId}
  {s : Sequence}

def bound? (h : Heap) (f : FrameId) (x : String) : Option Value :=
  (h.frames.find? f).bind (·.find? x)

theorem bound_congr {h h' : Heap} (frames : h'.frames = h.frames) (f : FrameId) (x : String) :
    h'.bound? f x = h.bound? f x := by rw [bound?, bound?, frames]

theorem bound_frame {value : Value} (bound : h.bound? f x = some value) :
    h.has (.frame f) = true := by
  obtain ⟨b, found, _⟩ := Option.bind_eq_some_iff.mp bound
  exact has_frame_iff.mpr ⟨b, found⟩

theorem bound_held {value : Value} (bound : h.bound? f x = some value) :
    ∀ r ∈ value.refs, r ∈ h.refs := by
  obtain ⟨b, found, there⟩ := Option.bind_eq_some_iff.mp bound
  exact fun r hr => mem_refs_iff.mpr (.inr (.inr (.inr (.inr ⟨f, b, found, x, value, there, hr⟩))))

theorem bound_insert (there : h.has (.frame f) = true) (x : String) (value : Value) (g : FrameId)
    (y : String) : (h.modifyFrame f (·.insert x value)).bound? g y =
      if g = f ∧ y = x then some value else h.bound? g y := by
  obtain ⟨b, found⟩ := has_frame_iff.mp there
  change ((h.frames.modify f _).find? g).bind _ = _
  rw [Store.find_modify]
  by_cases frame : f = g
  · subst frame
    rw [if_pos rfl, found, Option.map_some, Option.bind_some, Table.find_insert, bound?, found,
      Option.bind_some]
    simp only [true_and, eq_comm]
  · rw [if_neg frame, if_neg (fun same => frame same.1.symm)]
    rfl

theorem bound_erase (h : Heap) (f : FrameId) (x : String) (g : FrameId) (y : String) :
    (h.modifyFrame f (·.erase x)).bound? g y = if g = f ∧ y = x then none else h.bound? g y := by
  change ((h.frames.modify f _).find? g).bind _ = _
  rw [Store.find_modify]
  by_cases frame : f = g
  · subst frame
    rw [if_pos rfl, bound?]
    cases h.frames.find? f with
    | none => simp
    | some b =>
      rw [Option.map_some, Option.bind_some, Table.find_erase, Option.bind_some]
      simp only [true_and, eq_comm]
  · rw [if_neg frame, if_neg (fun same => frame same.1.symm)]
    rfl

/-- A vector that names are bound to. Its first binding took it out of its temporary state. -/
structure Bound (h : Heap) (v : VectorId) (c : ContextId) (s : Sequence) : Prop
    extends h.Tracked v c s where
  plain : s.type ≠ .list
  owned : .owned ≤ s.sharing

/-- The names of a heap show what a ledger says. A vector behind two names is shared, and no two
vectors that are bound write into one foreign buffer. -/
structure Agrees (h : Heap) (c : ContextId) (l : Ledger) : Prop where
  intact : h.Intact
  balanced : h.Balanced
  names : ∀ f x, h.has (.frame f) = true → (h.bound? f x = none ∧ l f x = none) ∨
    ∃ v s, h.bound? f x = some (.vector v) ∧ h.Bound v c s ∧ l f x = some s.content
  shared : ∀ f x g y v s, h.bound? f x = some (.vector v) → h.bound? g y = some (.vector v) →
    h.sequence? v = some s → ¬ (g = f ∧ y = x) → s.sharing = .shared
  apart : ∀ f x g y v w b, h.bound? f x = some (.vector v) → h.bound? g y = some (.vector w) →
    h.foreign? v = some b → h.foreign? w = some b → v = w

theorem Agrees.bound (A : h.Agrees c l) (there : h.bound? f x = some (.vector v)) :
    ∃ s, h.Bound v c s ∧ l f x = some s.content := by
  rcases A.names f x (bound_frame there) with ⟨none, _⟩ | ⟨w, s, same, B, content⟩
  · exact absurd (none.symm.trans there) (by simp)
  · cases same.symm.trans there
    exact ⟨s, B, content⟩

theorem Agrees.unbound (A : h.Agrees c l) (there : h.has (.frame f) = true)
    (none : h.bound? f x = none) : l f x = .none := by
  rcases A.names f x there with ⟨_, empty⟩ | ⟨v, s, bound, _⟩
  · exact empty
  · exact absurd (none.symm.trans bound) (by simp)

/-- Bound vectors may show other sequences, which the new ledger has the contents of. Frames may come
and go. -/
theorem Agrees.carry (A : h.Agrees c l) (intact : h'.Intact) (balanced : h'.Balanced)
    (frames : ∀ f x, h'.has (.frame f) = true → h'.bound? f x = h.bound? f x)
    (unbound : ∀ f x, h'.has (.frame f) = true → h.bound? f x = none → l' f x = none)
    (kept : ∀ f x v s, h.bound? f x = some (.vector v) → h.Bound v c s → l f x = some s.content →
      ∃ s', h'.Tracked v c s' ∧ s'.type = s.type ∧ s.sharing ≤ s'.sharing ∧
        l' f x = some s'.content ∧ ∀ b, h'.foreign? v = some b → h.foreign? v = some b) :
    h'.Agrees c l' := by
  have was : ∀ {f x v}, h'.bound? f x = some (.vector v) → h.bound? f x = some (.vector v) :=
    fun there => (frames _ _ (bound_frame there)).symm.trans there
  refine ⟨intact, balanced, fun f x there => ?_, fun f x g y v s first second shows other => ?_,
    fun f x g y v w b first second behind behind' => ?_⟩
  · have same := frames f x there
    cases value : h.bound? f x with
    | none => exact .inl ⟨same.trans value, unbound f x there value⟩
    | some _ =>
      rcases A.names f x (bound_frame value) with ⟨none, _⟩ | ⟨v, s, bound, B, content⟩
      · exact absurd (none.symm.trans value) (by simp)
      · obtain ⟨s', t, type, more, content', _⟩ := kept f x v s bound B content
        exact .inr ⟨v, s', same.trans bound,
          ⟨t, type ▸ B.plain, SharingState.le_trans B.owned more⟩, content'⟩
  · obtain ⟨s₀, B, content⟩ := A.bound (was first)
    obtain ⟨s', t, _, more, _⟩ := kept f x v s₀ (was first) B content
    rw [A.shared f x g y v s₀ (was first) (was second) B.sequence other] at more
    cases t.sequence.symm.trans shows
    exact SharingState.eq_shared more
  · obtain ⟨s₀, B, content⟩ := A.bound (was first)
    obtain ⟨s₁, B₁, content₁⟩ := A.bound (was second)
    obtain ⟨_, _, _, _, _, old⟩ := kept f x v s₀ (was first) B content
    obtain ⟨_, _, _, _, _, old₁⟩ := kept g y w s₁ (was second) B₁ content₁
    exact A.apart f x g y v w b (was first) (was second) (old b behind) (old₁ b behind')

/-! ### Steps that keep what names show -/

theorem Agrees.move {T : VectorId → Prop} {B : BufferId → Prop} (A : h.Agrees c l)
    (M : h.Moves T B h')
    (kept : ∀ f x v s, h.bound? f x = some (.vector v) → h.sequence? v = some s →
      ∃ state, s.sharing ≤ state ∧ h.Leaves v { s with sharing := state } h') : h'.Agrees c l := by
  refine A.carry (M.intact A.intact) (M.balanced A.intact A.balanced)
    (fun f x _ => bound_congr M.frames f x) (fun f x there none => ?_)
    (fun f x v s bound B content => ?_)
  · rw [has, M.frames] at there
    exact A.unbound there none
  · obtain ⟨state, more, shows, foreign⟩ := kept f x v s bound B.sequence
    exact ⟨_, ⟨M.intact A.intact, M.balanced A.intact A.balanced, shows,
      M.contextOf A.intact B.context, B.own.later A.intact M⟩, rfl, more, content, foreign⟩

theorem Moves.leaves_untouched {T : VectorId → Prop} {B : BufferId → Prop} (I : h.Intact)
    (M : h.Moves T B h') (untouched : ¬ T v) (unwritten : ∀ b, h.foreign? v = some b → ¬ B b)
    (shows : h.sequence? v = some s) :
    ∃ state, s.sharing ≤ state ∧ h.Leaves v { s with sharing := state } h' := by
  obtain ⟨after, foreign⟩ := M.untouched I untouched unwritten shows
  exact ⟨s.sharing, s.sharing.le_refl, after, fun b there => foreign ▸ there⟩

theorem Agrees.apart_from {T : VectorId → Prop} {B : BufferId → Prop} (A : h.Agrees c l)
    (M : h.Moves T B h') (untouched : ∀ f x v, h.bound? f x = some (.vector v) → ¬ T v ∧
      ∀ b, h.foreign? v = some b → ¬ B b) : h'.Agrees c l :=
  A.move M (fun f x v _ bound shows =>
    M.leaves_untouched A.intact (untouched f x v bound).1 (untouched f x v bound).2 shows)

theorem Agrees.shares {T : VectorId → Prop} {B : BufferId → Prop} (A : h.Agrees c l)
    (M : h.Moves T B h') (S : h.Shares h') : h'.Agrees c l :=
  A.move M (fun _ _ v s _ shows => S v s shows)

theorem Agrees.shed (A : h.Agrees c l) (S : h.Sheds h') (balanced : h'.Balanced)
    (there : ∀ v, .vector v ∈ h.refs → h'.has (.vector v) = true) : h'.Agrees c l := by
  refine A.carry (S.intact A.intact) balanced (fun f x alive => ?_) (fun f x alive none => ?_)
    (fun f x v s bound B content => ?_)
  · obtain ⟨b, found⟩ := has_frame_iff.mp alive
    rw [bound?, bound?, found, S.frames f b found]
  · obtain ⟨b, found⟩ := has_frame_iff.mp alive
    exact A.unbound (has_frame_iff.mpr ⟨b, S.frames f b found⟩) none
  · have alive := there v (bound_held bound _ (List.mem_singleton_self _))
    have t := B.shed S balanced alive
    obtain ⟨cell, found⟩ := has_vector_iff.mp alive
    have K := S.keepsCell A.intact found
    have foreign := (K.sequence A.intact (S.intact A.intact) (S.vectors v cell found)
      (fun b _ => by rw [S.buffers])).2
    exact ⟨s, t, rfl, s.sharing.le_refl, content, fun b behind => foreign ▸ behind⟩

/-! ### Other bindings -/

/-- A vector may be bound to a name, as far as the other names go. -/
structure Bindable (h : Heap) (c : ContextId) (f : FrameId) (x : String) (v : VectorId)
    (s : Sequence) : Prop extends h.Bound v c s where
  shared : ∀ g y, h.bound? g y = some (.vector v) → ¬ (g = f ∧ y = x) → s.sharing = .shared
  apart : ∀ g y w b, h.bound? g y = some (.vector w) → h.foreign? v = some b →
    h.foreign? w = some b → v = w

theorem Agrees.rebind (A : h.Agrees c l) (R : h.Rebinds h')
    (frames : ∀ g, h'.has (.frame g) = true → h.has (.frame g) = true)
    (elsewhere : ∀ g y, ¬ (g = f ∧ y = x) → h'.bound? g y = h.bound? g y) {t : Option Content}
    (here : (h'.bound? f x = none ∧ t = none) ∨ ∃ v s, h'.bound? f x = some (.vector v) ∧
      h.Bindable c f x v s ∧ t = some s.content) : h'.Agrees c (l.bind f x t) := by
  have sequence := R.sequence
  have foreign : ∀ w, h'.foreign? w = h.foreign? w := fun w => by rw [R.rest]; rfl
  have moved : ∀ {w s}, h.Bound w c s → h'.Bound w c s := fun B =>
    ⟨⟨R.intact A.intact, R.balanced A.balanced, (sequence _).trans B.sequence,
      (R.contextOf _).trans B.context, fun e he o ho => (R.contextOf o).trans (B.own e he o ho)⟩,
      B.plain, B.owned⟩
  -- a name is the one that was rebound, or it is bound as before
  have cases_of : ∀ {g y w}, h'.bound? g y = some (.vector w) →
      (g = f ∧ y = x ∧ ∃ s, h.Bindable c f x w s) ∨
        (¬ (g = f ∧ y = x) ∧ h.bound? g y = some (.vector w)) := by
    intro g y w there
    by_cases same : g = f ∧ y = x
    · obtain ⟨rfl, rfl⟩ := same
      rcases here with ⟨none, _⟩ | ⟨v, s, bound, V, _⟩
      · exact absurd (none.symm.trans there) (by simp)
      · cases bound.symm.trans there
        exact .inl ⟨rfl, rfl, s, V⟩
    · exact .inr ⟨same, (elsewhere g y same).symm.trans there⟩
  refine ⟨R.intact A.intact, R.balanced A.balanced, fun g y there => ?_,
    fun g y g' y' w s first second shows other => ?_,
    fun g y g' y' w w' b first second behind behind' => ?_⟩
  · by_cases same : g = f ∧ y = x
    · obtain ⟨rfl, rfl⟩ := same
      rcases here with ⟨none, empty⟩ | ⟨v, s, bound, V, content⟩
      · exact .inl ⟨none, (if_pos ⟨rfl, rfl⟩).trans empty⟩
      · exact .inr ⟨v, s, bound, moved V.toBound, (if_pos ⟨rfl, rfl⟩).trans content⟩
    · rw [elsewhere g y same, Ledger.bind, if_neg same]
      rcases A.names g y (frames g there) with none | ⟨v, s, bound, B, content⟩
      · exact .inl none
      · exact .inr ⟨v, s, bound, moved B, content⟩
  · rw [sequence] at shows
    rcases cases_of first with ⟨rfl, rfl, s₀, V⟩ | ⟨apart, first⟩
    · rcases cases_of second with ⟨rfl, rfl, _⟩ | ⟨apart', second⟩
      · exact absurd ⟨rfl, rfl⟩ other
      · cases V.sequence.symm.trans shows
        exact V.shared g' y' second apart'
    · rcases cases_of second with ⟨rfl, rfl, s₀, V⟩ | ⟨_, second⟩
      · cases V.sequence.symm.trans shows
        exact V.shared g y first apart
      · exact A.shared g y g' y' w s first second shows other
  · rw [foreign] at behind behind'
    rcases cases_of first with ⟨rfl, rfl, s₀, V⟩ | ⟨_, first⟩
    · rcases cases_of second with ⟨rfl, rfl, s₁, V'⟩ | ⟨_, second⟩
      · exact Value.vector.inj (Option.some.inj (first.symm.trans second))
      · exact V.apart g' y' w' b second behind behind'
    · rcases cases_of second with ⟨rfl, rfl, s₁, V'⟩ | ⟨_, second⟩
      · exact (V'.apart g y w b first behind' behind).symm
      · exact A.apart g y g' y' w w' b first second behind behind'

end Heap
end VectorHeap
