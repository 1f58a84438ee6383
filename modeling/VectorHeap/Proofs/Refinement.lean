import Mathlib.Algebra.Group.Nat.Defs
import VectorHeap.Heap.Inspection
import VectorHeap.Proofs.Tracking

/-! Promotion is invisible. Whatever users do to a vector, and whenever it is promoted, each access
comes to what a sequence makes of it. -/
namespace VectorHeap

/-! ### Accesses -/

namespace Op

def state (v : VectorId) : Op VectorState := do live ((← get).vectorState? v)

theorem state_run {h : Heap} {v : VectorId} {cell : VectorCell}
    (found : h.vectors.find? v = some cell) : ∃ s, state v h = .ok s h ∧ s.length = cell.length ∧
      s.capacity = cell.capacity ∧ s.complete = cell.complete := by
  have shown : h.vectorState? v = some ⟨cell.type, cell.length, cell.capacity, cell.complete,
      cell.buffer.isNone, h.handleOf (.vector v), (h.backingOf (.vector v)).placement,
      cell.sharing⟩ := by
    rw [Heap.vectorState?, found]
    rfl
  exact ⟨_, by rw [state, get_bind, shown, live_some], rfl, rfl, rfl⟩

end Op

namespace Access

def op (v : VectorId) : Access → Op Answer
  | get i => .elem <$> Op.getElem v i
  | toList => .elems <$> Op.toList v
  | length => (fun s => .count s.length) <$> Op.state v
  | capacity => (fun s => .count s.capacity) <$> Op.state v
  | isComplete => (fun s => .flag s.complete) <$> Op.state v
  | set i e => (fun _ => .done) <$> Op.setElem v i e
  | setLength n => (fun _ => .done) <$> Op.setLength v n
  | setCapacity n => (fun _ => .done) <$> Op.setCapacity v n
  | share t => .sharing <$> Op.applyTrigger v t
  | ensureHandle => (fun _ => .done) <$> Op.ensureHandle (.vector v)
  | promote => (fun _ => .done) <$> Op.promote v

def Admissible (access : Access) (h : Heap) (c : ContextId) : Prop :=
  ∀ i e, access = set i e → h.Own c [e]

end Access

/-- Accesses that there is no memory for. -/
def Sequence.Refuses (h : Heap) (s : Sequence) : Access → Fault → Prop
  | .setCapacity n, f => s.length ≤ n ∧ Op.Exceeds h s.type n f
  | .promote, f => Op.NoRoom h s.type s.capacity f
  | _, _ => False

structure Event where
  access : Access
  result : Except Fault Answer
  before : Heap
  after : Heap

/-- An event is what a sequence makes of the access, with fillers of the context in new slots. Or the
access was refused as there is no memory for it, and nothing shows. -/
inductive Event.Shows (c : ContextId) (s : Sequence) (event : Event) (s' : Sequence) : Prop
  | answered (fillers : List Elem) (count : fillers.length = s.growth event.access)
      (fill : event.before.Fillers event.after c s.type fillers)
      (same : s.answer event.before.isNA fillers event.access = (event.result, s'))
  | refused (f : Fault) (stopped : event.result = .error f) (refuses : s.Refuses event.before event.access f)
      (same : s' = s)

/-- Events that a sequence goes through, the last one first. -/
inductive Plays (c : ContextId) (s₀ : Sequence) : List Event → Sequence → Prop
  | start : Plays c s₀ [] s₀
  | next {events : List Event} {event : Event} {s s' : Sequence} (first : Plays c s₀ events s)
      (last : event.Shows c s s') : Plays c s₀ (event :: events) s'

/-- What users do to a vector, among steps that leave it alone. -/
inductive Uses (c : ContextId) (v : VectorId) (h₀ : Heap) : List Event → Heap → Prop
  | start : Uses c v h₀ [] h₀
  | answer {events : List Event} {h h' : Heap} {a : Answer} (first : Uses c v h₀ events h)
      (access : Access) (ok : access.Admissible h c) (run : access.op v h = .ok a h') :
    Uses c v h₀ (⟨access, .ok a, h, h'⟩ :: events) h'
  | stop {events : List Event} {h h' : Heap} {f : Fault} (first : Uses c v h₀ events h)
      (access : Access) (ok : access.Admissible h c) (run : access.op v h = .error f h')
      (distinct : Heap.Distinct f) : Uses c v h₀ (⟨access, .error f, h, h'⟩ :: events) h'
  | aside {events : List Event} {h h' : Heap} (first : Uses c v h₀ events h)
      (last : h.Aside v h') : Uses c v h₀ events h'

namespace Heap

open Op

variable {h h' : Heap} {v : VectorId} {c : ContextId} {s s' : Sequence}

/-! ### One access -/

def Shown (h : Heap) (v : VectorId) (c : ContextId) (s : Sequence) (access : Access)
    (result : Except Fault Answer) (h' : Heap) : Prop :=
  ∃ s', Event.Shows c s ⟨access, result, h, h'⟩ s' ∧ h'.Tracked v c s'

def Serves (h : Heap) (v : VectorId) (c : ContextId) (s : Sequence) (access : Access) : Prop :=
  Outcome (access.op v) h (fun a h' => h.Shown v c s access (.ok a) h')
    (fun f h' => Distinct f → h.Shown v c s access (.error f) h')

theorem Fillers.none {type : ElemType} : h.Fillers h' c type [] := ⟨by simp, by simp, fun _ => .nil⟩

theorem Tracked.moved {T : VectorId → Prop} {B : BufferId → Prop} (t : h.Tracked v c s)
    (M : h.Moves T B h') (shows : h'.sequence? v = some s') (own : h'.Own c s'.slots) :
    h'.Tracked v c s' :=
  ⟨M.intact t.intact, M.balanced t.intact t.balanced, shows, M.contextOf t.intact t.context, own⟩

theorem Tracked.shown {T : VectorId → Prop} {B : BufferId → Prop} {access : Access}
    {result : Except Fault Answer} (t : h.Tracked v c s) (M : h.Moves T B h')
    (plain : s.growth access = 0) (same : s.answer h.isNA [] access = (result, s'))
    (shows : h'.sequence? v = some s') (own : h'.Own c s'.slots) :
    h.Shown v c s access result h' :=
  ⟨s', .answered [] plain.symm .none same, t.moved M shows own⟩

theorem Tracked.seen {access : Access} {result : Except Fault Answer} (t : h.Tracked v c s)
    (plain : s.growth access = 0) (same : s.answer h.isNA [] access = (result, s)) :
    h.Shown v c s access result h :=
  t.shown (T := Nowhere) (B := Nowhere) .refl plain same t.sequence t.own

theorem Tracked.get (t : h.Tracked v c s) (i : Nat) : h.Serves v c s (.get i) := by
  obtain ⟨cell, found, rfl, rfl, readable⟩ := t.readable
  refine Outcome.map ?_
  by_cases lt : i < cell.length
  · obtain ⟨e, he, run⟩ := getElem_run t.intact found readable lt
    have slot : (h.sequence cell).elements[i]? = some e := by
      rw [Sequence.getElem?_elements, if_pos (show i < (h.sequence cell).length from lt)]
      exact he
    exact .of_ok run (t.seen rfl (by simp only [Sequence.answer, slot]))
  · have slot : (h.sequence cell).elements[i]? = none := by
      rw [Sequence.getElem?_elements, if_neg (show ¬ i < (h.sequence cell).length from lt)]
    refine .of_error (getElem_past found lt) (fun _ => t.seen rfl ?_)
    simp only [Sequence.answer, slot]
    rfl

theorem Tracked.toList (t : h.Tracked v c s) : h.Serves v c s .toList := by
  obtain ⟨cell, found, rfl, rfl, readable⟩ := t.readable
  exact Outcome.map (.of_ok (toList_run t.intact found readable) (t.seen rfl rfl))

theorem Tracked.inspect (t : h.Tracked v c s) {access : Access}
    (inspects : access = .length ∨ access = .capacity ∨ access = .isComplete) :
    h.Serves v c s access := by
  obtain ⟨cell, found, rfl, rfl, _⟩ := t.readable
  obtain ⟨state, run, length, capacity, complete⟩ := state_run found
  have slots : (h.sequence cell).capacity = cell.capacity :=
    (t.intact.vectors v cell found).length_elements
  rcases inspects with rfl | rfl | rfl
  · exact Outcome.map (.of_ok run (t.seen rfl (by rw [length]; rfl)))
  · exact Outcome.map (.of_ok run (t.seen rfl (by rw [capacity, ← slots]; rfl)))
  · exact Outcome.map (.of_ok run (t.seen rfl (by rw [complete]; rfl)))

theorem set_eq {i : Nat} {e : Elem} {missing : Bool} (ok : s.set i e missing = .ok s') :
    s' = s.store i e missing := by
  unfold Sequence.set at ok
  split at ok
  · exact absurd ok (by simp)
  · split at ok
    · exact absurd ok (by simp)
    · split at ok
      · exact (Except.ok.inj ok).symm
      · exact absurd ok (by simp)

theorem setLength_eq {n : Nat} (ok : s.setLength n = .ok s') : s'.slots = s.slots := by
  unfold Sequence.setLength at ok
  split at ok
  · exact absurd ok (by simp)
  · rw [← Except.ok.inj ok]

theorem Tracked.set (t : h.Tracked v c s) (i : Nat) {e : Elem} (own : h.Own c [e]) :
    h.Serves v c s (.set i e) := by
  obtain ⟨cell, found, rfl, rfl, _⟩ := t.readable
  have mine := own e (List.mem_singleton_self e)
  have P := setElem_performs t.intact found
    (fun o ho => isAlive_iff_contextOf.mpr ⟨_, mine o ho⟩) i
  refine Outcome.map (Outcome.mono P ?_ ?_)
  · rintro _ h' ⟨M, s', ok, shows, _⟩
    refine t.shown M rfl (by simp only [Sequence.answer, ok, Sequence.change]) shows ?_
    rw [set_eq ok]
    exact (t.own.later t.intact M).set (own.later t.intact M) i
  · rintro f h' (⟨M, ⟨rfl, refused⟩ | ⟨rfl, ⟨o, ho, orphaned⟩, _⟩⟩ | ⟨⟨k, rfl⟩, _⟩) distinct
    · exact t.seen rfl (by simp only [Sequence.answer, refused, Sequence.change])
    · exact absurd orphaned (not_orphaned (mine o ho) t.has_context)
    · exact absurd rfl (distinct k)

theorem Tracked.setLength (t : h.Tracked v c s) (n : Nat) : h.Serves v c s (.setLength n) := by
  obtain ⟨cell, found, rfl, rfl, _⟩ := t.readable
  have P := setLength_performs (B := Nowhere) t.intact found n
  refine Outcome.map (Outcome.mono P ?_ ?_)
  · rintro _ h' ⟨M, s', ok, shows⟩
    refine t.shown M rfl (by simp only [Sequence.answer, ok, Sequence.change]) shows ?_
    rw [setLength_eq ok]
    exact t.own.later t.intact M
  · rintro f h' (⟨M, rfl, refused⟩ | ⟨⟨k, rfl⟩, _⟩) distinct
    · exact t.seen rfl (by simp only [Sequence.answer, refused, Sequence.change])
    · exact absurd rfl (distinct k)

theorem Tracked.setCapacity (t : h.Tracked v c s) (n : Nat) :
    h.Serves v c s (.setCapacity n) := by
  obtain ⟨cell, found, rfl, rfl, _⟩ := t.readable
  have slots : (h.sequence cell).capacity = cell.capacity :=
    (t.intact.vectors v cell found).length_elements
  have P := setCapacity_performs t.intact found n
  refine Outcome.map (Outcome.mono P ?_ ?_)
  · rintro _ h' ⟨M, low, es, count, fill, shows⟩
    have ok : (h.sequence cell).setCapacity n es = .ok ((h.sequence cell).resize n es) :=
      if_neg (Nat.not_lt.mpr low)
    refine ⟨_, .answered es (by rw [count, ← slots]; rfl) fill
      (by simp only [Sequence.answer, ok, Sequence.change]), t.moved M shows ?_⟩
    intro e he o ho
    rcases List.mem_append.mp he with old | new
    · exact M.contextOf t.intact (t.own e (List.mem_of_mem_take old) o ho)
    · exact (fill.fillers e new).own (M.intact t.intact) ho
  · rintro f h' (⟨M, shows, ⟨below, rfl⟩ | ⟨low, large⟩⟩ | ⟨⟨k, rfl⟩, _⟩) distinct
    · have none : (h.sequence cell).growth (.setCapacity n) = 0 := by
        have window := (t.intact.vectors v cell found).window
        rw [Sequence.growth, slots]
        omega
      have refused : (h.sequence cell).setCapacity n [] =
          .error (.error (.capacityBelowLength n cell.length)) := if_pos below
      exact t.shown M none (by simp only [Sequence.answer, refused, Sequence.change]) shows
        (t.own.later t.intact M)
    · exact ⟨_, .refused f rfl ⟨low, large⟩ rfl, t.moved M shows (t.own.later t.intact M)⟩
    · exact absurd rfl (distinct k)

theorem Tracked.share (t : h.Tracked v c s) (trigger : SharingTrigger) :
    h.Serves v c s (.share trigger) := by
  obtain ⟨cell, found, rfl, rfl, _⟩ := t.readable
  have P : Performs (Only v) Nowhere (setSharing v (·.after trigger)) h _ (fun _ _ => False) :=
    setSharing_performs t.intact found (·.le_after trigger)
  refine Outcome.map (Outcome.mono P ?_ ?_)
  · rintro _ h' ⟨M, rfl, shows, _⟩
    exact t.shown M rfl rfl shows (t.own.later t.intact M)
  · rintro f h' (⟨_, never⟩ | ⟨⟨k, rfl⟩, _⟩) distinct
    · exact never.elim
    · exact absurd rfl (distinct k)

theorem Tracked.ensureHandle (t : h.Tracked v c s) : h.Serves v c s .ensureHandle := by
  obtain ⟨cell, found, _⟩ := t.readable
  have P := ensureHandle_performs (T := Nowhere) (B := Nowhere) t.intact (o := .vector v)
    (isAlive_iff_contextOf.mpr ⟨c, t.context⟩)
  refine Outcome.map (Outcome.mono P ?_ ?_)
  · rintro _ h' ⟨M, _⟩
    exact t.shown M rfl rfl (M.untouched t.intact id (fun _ _ => id) t.sequence).1
      (t.own.later t.intact M)
  · rintro f h' (⟨_, _, never⟩ | ⟨⟨k, rfl⟩, _⟩) distinct
    · exact never.elim
    · exact absurd rfl (distinct k)

theorem Tracked.promote (t : h.Tracked v c s) : h.Serves v c s .promote := by
  obtain ⟨cell, found, rfl, rfl, _⟩ := t.readable
  have slots : (h.sequence cell).capacity = cell.capacity :=
    (t.intact.vectors v cell found).length_elements
  refine Outcome.map (Outcome.mono (promote_performs t.intact found) ?_ ?_)
  · rintro _ h' ⟨M, ⟨shows, _⟩, _⟩
    exact t.shown M rfl rfl shows (t.own.later t.intact M)
  · rintro f h' (⟨M, ⟨shows, _⟩, large | ⟨rfl, e, he, o, ho, orphaned⟩⟩ | ⟨⟨k, rfl⟩, _⟩) distinct
    · refine ⟨_, .refused f rfl ?_ rfl, t.moved M shows (t.own.later t.intact M)⟩
      rw [Sequence.Refuses, slots]
      exact large
    · exact absurd orphaned (not_orphaned (t.own e he o ho) t.has_context)
    · exact absurd rfl (distinct k)

theorem Tracked.serves (t : h.Tracked v c s) {access : Access} (ok : access.Admissible h c) :
    h.Serves v c s access := by
  cases access with
  | get i => exact t.get i
  | toList => exact t.toList
  | length => exact t.inspect (.inl rfl)
  | capacity => exact t.inspect (.inr (.inl rfl))
  | isComplete => exact t.inspect (.inr (.inr rfl))
  | set i e => exact t.set i (ok i e rfl)
  | setLength n => exact t.setLength n
  | setCapacity n => exact t.setCapacity n
  | share trigger => exact t.share trigger
  | ensureHandle => exact t.ensureHandle
  | promote => exact t.promote

/-- Whatever is done to a vector that shows a sequence is a play of that sequence. -/
theorem Tracked.uses {h₀ : Heap} {s₀ : Sequence} {events : List Event} (t : h₀.Tracked v c s₀)
    (uses : Uses c v h₀ events h) : ∃ s, Plays c s₀ events s ∧ h.Tracked v c s := by
  induction uses with
  | start => exact ⟨s₀, .start, t⟩
  | answer _ access ok run ih =>
    obtain ⟨s, plays, t⟩ := ih
    obtain ⟨s', shows, t'⟩ := (t.serves ok).ok run
    exact ⟨s', plays.next shows, t'⟩
  | stop _ access ok run distinct ih =>
    obtain ⟨s, plays, t⟩ := ih
    obtain ⟨s', shows, t'⟩ := (t.serves ok).error run distinct
    exact ⟨s', plays.next shows, t'⟩
  | aside _ last ih =>
    obtain ⟨s, plays, t⟩ := ih
    exact ⟨s, plays, t.aside last⟩

end Heap

/-! ### Constructions -/

inductive Construction
  | new (type : ElemType) (es : List Elem)
  | withCapacity (type : ElemType) (length capacity : Nat)
  | adopt (type : ElemType) (buffer : BufferId) (length : Nat)

namespace Construction

def type : Construction → ElemType
  | new type _ | withCapacity type .. | adopt type .. => type

def op (c : ContextId) : Construction → Op VectorId
  | new type es => Op.bufferOf type es >>= Op.newVector c
  | withCapacity type length capacity => Op.withCapacity c type length capacity
  | adopt type buffer length => Op.adopt c type (some buffer) length

/-- The context and the memory are there, and elements are of the context. -/
structure Admissible (made : Construction) (h : Heap) (c : ContextId) : Prop where
  alive : h.has (.context c) = true
  own : ∀ type es, made = new type es → h.Own c es
  memory : ∀ type b length, made = adopt type b length →
    ∃ foreign, h.buffers.find? b = some foreign ∧ type.nativeWidth * length ≤ foreign.bytes.length

def Begins (made : Construction) (c : ContextId) (before after : Heap) (s : Sequence) : Prop :=
  match made with
  | new type es => s = ⟨type, es, es.length,
      decide (type = .raw ∨ type = .list) || !es.any before.isNA, .temporary⟩
  | withCapacity type length capacity => ∃ fillers, fillers.length = capacity ∧
      before.Fillers after c type fillers ∧
      s = ⟨type, fillers, length, decide (type = .raw ∨ type = .list ∨ length = 0), .temporary⟩
  | adopt type b length => ∃ t foreign, type = InlineType.elemType t ∧
      before.buffers.find? b = some foreign ∧
      s = ⟨type, (t.decodeAll length foreign.bytes).map (Elem.ofValue t), length, false, .temporary⟩

variable {h h' : Heap} {c : ContextId} {made : Construction}

theorem Begins.type {s : Sequence} (begins : made.Begins c h h' s) : s.type = made.type := by
  cases made with
  | new type es =>
    rw [show s = _ from begins]
    rfl
  | withCapacity type length capacity =>
    obtain ⟨_, _, _, rfl⟩ := begins
    rfl
  | adopt type b length =>
    obtain ⟨_, _, _, _, rfl⟩ := begins
    rfl

/-- There is one sequence that a vector starts as, unless its slots hold lists of their own. -/
theorem Begins.unique {s s' : Sequence} (plain : made.type ≠ .list) (first : made.Begins c h h' s)
    (second : made.Begins c h h' s') : s = s' := by
  cases made with
  | new type es => exact (show s = _ from first).trans (show s' = _ from second).symm
  | withCapacity type length capacity =>
    obtain ⟨es, count, fill, rfl⟩ := first
    obtain ⟨es', count', fill', rfl⟩ := second
    rw [fill.unique plain fill' (count.trans count'.symm)]
  | adopt type b length =>
    obtain ⟨t, foreign, rfl, found, rfl⟩ := first
    obtain ⟨t', foreign', same, found', rfl⟩ := second
    cases found.symm.trans found'
    cases t <;> cases t' <;> first | rfl | cases same

open Op

theorem performs (I : h.Intact) (ok : made.Admissible h c) :
    Performs (fun w => h.has (.vector w) = false) Nowhere (made.op c) h
      (fun v h' => ∃ s, made.Begins c h h' s ∧ h'.sequence? v = some s ∧
        h'.contextOf? (.vector v) = some c ∧ h'.Own c s.slots ∧
        ∀ b, h'.foreign? v = some b → ∃ type length, made = adopt type b length)
      (fun _ _ => True) := by
  cases made with
  | new type es =>
    have own := ok.own type es rfl
    have alive : ∀ e ∈ es, ∀ o, e.object? = some o → h.isAlive o = true :=
      fun e he o ho => Heap.isAlive_iff_contextOf.mpr ⟨c, own e he o ho⟩
    by_cases typed : ∀ e ∈ es, e.type = type
    · have run : (new type es).op c h = newVector c ⟨type, es, typed⟩ h :=
        bind_of_ok (bufferOf_run typed)
      refine .after .refl run ((newVector_performs ok.alive (holds_of_alive alive)).mono ?_
        (fun _ _ _ => id))
      intro v h' M V
      refine ⟨_, ?_, V.sequence, V.own, own.later I M, fun b behind => ?_⟩
      · simp only [Begins, Buffer.capacity, Heap.isComplete, List.take_length]
      · exact absurd (V.foreign.symm.trans behind) (by simp)
    · exact .of_error (bind_of_error (bufferOf_mistyped typed)) .refl trivial
  | withCapacity type length capacity =>
    refine ((withCapacity_performs I ok.alive type length capacity).mono ?_
      (fun _ _ _ _ => trivial)).widen (fun _ => False.elim) (fun _ => id)
    rintro v h' M ⟨es, count, fill, _, V⟩
    refine ⟨_, ⟨es, count, fill, rfl⟩, V.sequence, V.own, fun e he o ho => ?_, fun b behind => ?_⟩
    · exact (fill.fillers e he).own (M.intact I) ho
    · exact absurd (V.foreign.symm.trans behind) (by simp)
  | adopt type b length =>
    obtain ⟨foreign, there, large⟩ := ok.memory type b length rfl
    cases inline : InlineType.ofElemType? type with
    | none =>
      have indirect := Heap.ofElemType_eq_none.mp inline
      exact .of_error (adopt_indirect indirect c (some b) length) .refl trivial
    | some t =>
      obtain ⟨rfl, _⟩ := Heap.ofElemType_eq_some inline
      refine (adopt_performs I ok.alive there large).mono ?_ (fun _ _ _ => id)
      rintro v h' M ⟨_, context, behind, shows⟩
      refine ⟨_, ⟨t, foreign, rfl, there, rfl⟩, shows, context, ?_, fun b' behind' => ?_⟩
      · intro e he o ho
        obtain ⟨x, _, rfl⟩ := List.mem_map.mp he
        exact absurd ((Heap.object_ofValue t x).symm.trans ho) (by simp)
      · cases behind.symm.trans behind'
        exact ⟨_, _, rfl⟩

theorem tracked (I : h.Intact) (balanced : h.Balanced) (ok : made.Admissible h c) :
    Outcome (made.op c) h (fun v h' => ∃ s, made.Begins c h h' s ∧ h'.Tracked v c s)
      (fun _ _ => True) := by
  refine Outcome.mono (performs I ok) ?_ (fun _ _ _ => trivial)
  rintro v h' ⟨M, s, begins, shows, context, own, _⟩
  exact ⟨s, begins, M.intact I, M.balanced I balanced, shows, context, own⟩

end Construction
namespace Heap

variable {h h₀ h₁ : Heap} {c : ContextId} {v : VectorId}

/-- After any run in which no handle was registered twice, a vector that is made starts as a sequence,
and whatever is done to it from then on comes to what that sequence makes of it, wherever promotions
fall. What is put into it is of its own context, and what there is no memory for is refused. -/
theorem sequence_after_uses {supply : Nat → Nat → Option Address} {past : List Heap}
    (run : Run Distinct { supply } past h₀) {made : Construction} (ok : made.Admissible h₀ c)
    (answered : made.op c h₀ = .ok v h₁) {events : List Event} (uses : Uses c v h₁ events h) :
    ∃ s₀ s, made.Begins c h₀ h₁ s₀ ∧ Plays c s₀ events s ∧ h.sequence? v = some s := by
  have I := run_intact (intact_of_supply supply) run
  obtain ⟨s₀, begins, t₀⟩ := (Construction.tracked I (run_balanced run) ok).ok answered
  obtain ⟨s, plays, t⟩ := t₀.uses uses
  exact ⟨s₀, s, begins, plays, t.sequence⟩

/-- A vector of one string that is promoted, and that takes on an NA string then. -/
theorem plays_after_promotion :
    ∃ h₁ events h s, Uses ⟨0⟩ ⟨0⟩ h₁ events h ∧
      events.map Event.result =
        [.ok (.elems [.str ⟨0⟩, .str ⟨1⟩]), .ok .done, .ok .done, .ok .done] ∧
      Plays ⟨0⟩ ⟨.str, [.str ⟨0⟩], 1, true, .temporary⟩ events s ∧ h.sequence? ⟨0⟩ = some s := by
  have run₁ : Run Distinct {} [{}] _ :=
    Run.start.step (.answer (.newContext .default) ⟨by decide, by simp⟩ rfl)
  have run₂ := run₁.step (.answer (.newString ⟨0⟩ "a") ⟨by decide, by simp⟩ rfl)
  let h₀ : Heap := Op.after (Op.newString ⟨0⟩ "a") (Op.after (Op.addContext (.ofConfig .default)) {})
  let h₁ : Heap := Op.after ((Construction.new .str [.str ⟨0⟩]).op ⟨0⟩) h₀
  have uses₁ : Uses ⟨0⟩ ⟨0⟩ h₁ [] h₁ := .start
  have uses₂ := uses₁.answer (a := .done) .promote nofun (Op.run_of_ok (by decide +kernel))
  have uses₃ := uses₂.answer (a := .done) (.setCapacity 2) nofun
    (Op.run_of_ok (by decide +kernel))
  have uses₄ := uses₃.answer (a := .done) (.setLength 2) nofun (Op.run_of_ok (by decide +kernel))
  have uses₅ := uses₄.answer (a := .elems [.str ⟨0⟩, .str ⟨1⟩]) .toList nofun
    (Op.run_of_ok (by decide +kernel))
  have own : h₀.Own ⟨0⟩ [.str ⟨0⟩] := by
    intro e he o ho
    cases List.mem_singleton.mp he
    cases ho
    rfl
  have ok : (Construction.new .str [.str ⟨0⟩]).Admissible h₀ ⟨0⟩ :=
    ⟨by decide, fun _ _ e => by cases e; exact own, nofun⟩
  obtain ⟨s₀, s, begins, plays, shows⟩ := sequence_after_uses run₂ ok rfl uses₅
  cases begins
  exact ⟨h₁, _, _, s, uses₅, rfl, plays, shows⟩

/-- Promotion shows where these conditions fail: an element of another context reads as another object,
a handle that is drawn twice stops the promotion, and native memory holds fewer slots. -/
theorem promotion_shows :
    (∃ past h s, Run Distinct {} past h ∧ h.sequence? ⟨0⟩ = some s ∧
      (s.answer h.isNA [] (.get 0)).1 = .ok (.elem (.str ⟨1⟩)) ∧
      ((Access.get 0).op ⟨0⟩).result ((Access.promote.op ⟨0⟩).after h) = .ok (.elem (.str ⟨0⟩))) ∧
    (∃ past h s, Run Distinct {} past h ∧ h.sequence? ⟨2⟩ = some s ∧
      (s.answer h.isNA [] .promote).1 = .ok .done ∧
      (Access.promote.op ⟨2⟩).result h = .error (.panic (.registeredTwice ⟨1⟩))) ∧
    ∃ past h s, Run Distinct {} past h ∧ h.sequence? ⟨0⟩ = some s ∧
      (∀ fillers, (s.answer h.isNA fillers (.setCapacity (2 ^ 60))).1 = .ok .done) ∧
      ((Access.setCapacity (2 ^ 60)).op ⟨0⟩).result h =
        .error (.error (.allocationFailure (2 ^ 62))) := by
  have run₁ : Run Distinct {} [{}] _ :=
    Run.start.step (.answer (.newContext .default) ⟨by decide, by simp⟩ rfl)
  refine ⟨?_, ?_, ?_⟩
  · have run₂ := run₁.step (.answer (.newContext .default) ⟨by decide, by simp⟩ rfl)
    have run₃ := run₂.step (.answer (.newString ⟨0⟩ "a") ⟨by decide, by simp⟩ rfl)
    have run₄ := run₃.step (.answer (.newString ⟨1⟩ "b") ⟨by decide, by simp⟩ rfl)
    have run₅ := run₄.step (.answer (.newVector ⟨0⟩ .str [.str ⟨1⟩]) ⟨by decide, by simp⟩ rfl)
    have run₆ := run₅.step (.answer (.ensureHandle (.string ⟨0⟩)) ⟨by decide, by simp⟩ rfl)
    exact ⟨_, _, _, run₆, rfl, by decide +kernel, by decide +kernel⟩
  · have run₂ : Run Distinct {} [{}] _ := Run.start.step
      (.answer (.newContext { handles := ⟨1, 0x8000000000000000⟩ }) ⟨by decide, by simp⟩ rfl)
    have run₃ := run₂.step (.answer (.newVector ⟨0⟩ .int []) ⟨by decide, by simp⟩ rfl)
    have run₄ := run₃.step (.answer (.newVector ⟨0⟩ .int []) ⟨by decide, by simp⟩ rfl)
    have run₅ := run₄.step (.answer (.newVector ⟨0⟩ .int []) ⟨by decide, by simp⟩ rfl)
    have run₆ := run₅.step (.answer (.ensureHandle (.vector ⟨0⟩)) ⟨by decide, by simp⟩ rfl)
    have run₇ := run₆.step (.answer (.ensureHandle (.vector ⟨1⟩)) ⟨by decide, by simp⟩ rfl)
    exact ⟨_, _, _, run₇, rfl, by decide +kernel, by decide +kernel⟩
  · have run₂ := run₁.step (.answer (.newVector ⟨0⟩ .int []) ⟨by decide, by simp⟩ rfl)
    have run₃ := run₂.step (.answer (.promote ⟨0⟩) ⟨by decide, by simp⟩ rfl)
    exact ⟨_, _, _, run₃, rfl, fun _ => rfl, by decide +kernel⟩

end Heap
end VectorHeap
