import VectorHeap.Proofs.ValueSemantics

/-! Programs over names. Statements assign vectors to names, write through names, pass what is bound as
arguments and promote it. Whatever a program does, each name shows what it would show if every
assignment had copied. -/
namespace VectorHeap

namespace Op

def boundVector (f : FrameId) (x : String) : Op VectorId := do
  match ← binding? f x with
  | some (.vector v) => return v
  | _ => throw .dead

def content? (f : FrameId) (x : String) : Op (Option Content) := do
  match ← binding? f x with
  | none => return none
  | some (.vector v) => return some ⟨(← vector v).type, ← toList v⟩
  | some _ => throw .dead

end Op

inductive Statement
  | make (f : FrameId) (x : String) (made : Construction)
  | rebind (f : FrameId) (x : String) (g : FrameId) (y : String)
  | remove (f : FrameId) (x : String)
  | pass (as : List Argument)
  | ensureHandle (f : FrameId) (x : String)
  | promote (f : FrameId) (x : String)
  | modify (f : FrameId) (x : String) (i : Nat) (e : Elem)

namespace Statement

def op (c : ContextId) : Statement → Op Unit
  | make f x made => do discard (Op.assign f x (.vector (← made.op c)))
  | rebind f x g y => do discard (Op.assign f x (.vector (← Op.boundVector g y)))
  | remove f x => discard (Op.removeBinding f x)
  | pass as => Op.passArguments as
  | ensureHandle f x => do discard (Op.ensureHandle (.vector (← Op.boundVector f x)))
  | promote f x => do discard (Op.promote (← Op.boundVector f x))
  | modify f x i e => do Op.modifyBound f x (← Op.boundVector f x) i e

def frames : Statement → List FrameId
  | make f .. | remove f _ | ensureHandle f _ | promote f _ | modify f .. => [f]
  | rebind f _ g _ => [f, g]
  | pass _ => []

/-- The frames are there, arguments are bound, what is written is of the context, and a fresh vector is
no list and has memory of its own. -/
structure Admissible (st : Statement) (h : Heap) (c : ContextId) : Prop where
  frames : ∀ f ∈ st.frames, h.has (.frame f) = true
  bound : ∀ as, st = pass as → ∀ a ∈ as, ∃ g y, h.bound? g y = some a.value
  own : ∀ f x i e, st = modify f x i e → h.Own c [e]
  made : ∀ f x made, st = make f x made → made.Admissible h c ∧ made.type ≠ .list
  apart : ∀ f x type b length, st = make f x (.adopt type b length) →
    ∀ g y w, h.bound? g y = some (.vector w) → h.foreign? w ≠ some b

/-- A fresh vector that a statement assigns starts with a content. -/
def Starts (st : Statement) (c : ContextId) (h : Heap) (fresh : Content) : Prop :=
  ∀ f x made, st = make f x made → ∃ v h₁ s, made.op c h = .ok v h₁ ∧ made.Begins c h h₁ s ∧
    fresh = s.content

end Statement

/-- A statement where every assignment copies. A name that is not bound has nothing to copy. -/
def Ledger.run (l : Ledger) (fresh : Content) : Statement → Except Fault Unit × Ledger
  | .make f x _ => (.ok (), l.bind f x (some fresh))
  | .rebind f x g y =>
    match l g y with
    | some t => (.ok (), l.bind f x (some t))
    | none => (.error .dead, l)
  | .remove f x => (.ok (), l.bind f x none)
  | .pass _ => (.ok (), l)
  | .ensureHandle f x | .promote f x => (if (l f x).isSome then .ok () else .error .dead, l)
  | .modify f x i e => l.modify f x i e

/-- Programs on vectors of a context, among steps that leave what is bound alone, and the ledger that
the program comes to. A statement that fails is not to change it. -/
inductive Interprets (c : ContextId) (h₀ : Heap) : Heap → Ledger → Prop
  | start : Interprets c h₀ h₀ (fun _ _ => none)
  | answer {h h' : Heap} {l : Ledger} (first : Interprets c h₀ h l) (st : Statement)
      (ok : st.Admissible h c) (run : st.op c h = .ok () h') (fresh : Content)
      (starts : st.Starts c h fresh) : Interprets c h₀ h' (l.run fresh st).2
  | stop {h h' : Heap} {l : Ledger} {fault : Fault} (first : Interprets c h₀ h l) (st : Statement)
      (ok : st.Admissible h c) (run : st.op c h = .error fault h') (distinct : Heap.Distinct fault) :
      Interprets c h₀ h' l
  | aside {h h' : Heap} {l : Ledger} (first : Interprets c h₀ h l) (call : Call)
      (ok : call.Admissible h) (plain : call.binds = false)
      (run : call.op h = .ok () h' ∨ ∃ fault, Heap.Distinct fault ∧ call.op h = .error fault h')
      (apart : ∀ f x v, h.bound? f x = some (.vector v) → ¬ call.touches h v ∧
        ∀ b, h.foreign? v = some b → ¬ call.writes h b) : Interprets c h₀ h' l
  | bury {h : Heap} {l : Ledger} (first : Interprets c h₀ h l) (roots : List Ref) (r : Ref)
      (dead : r ∈ h.dead roots) : Interprets c h₀ (h.bury r) l
  | work {h : Heap} {l : Ledger} (first : Interprets c h₀ h l) (c' : ContextId) :
      Interprets c h₀ (h.work c') l
  | shutdown {h : Heap} {l : Ledger} (first : Interprets c h₀ h l) (c' : ContextId) :
      Interprets c h₀ (h.shutdown c') l

namespace Heap

open Op

variable {h h' : Heap} {c : ContextId} {l : Ledger} {f : FrameId} {x : String} {v : VectorId}
  {s : Sequence}

/-! ### What names are bound to -/

theorem boundVector_run (bound : h.bound? f x = some (.vector v)) :
    boundVector f x h = .ok v h := by
  obtain ⟨b, found, there⟩ := Option.bind_eq_some_iff.mp bound
  unfold boundVector
  rw [bind_of_ok (binding_run found x), there]
  rfl

theorem boundVector_none (there : h.has (.frame f) = true) (none : h.bound? f x = none) :
    boundVector f x h = .error .dead h := by
  obtain ⟨b, found⟩ := has_frame_iff.mp there
  rw [bound?, found, Option.bind_some] at none
  unfold boundVector
  rw [bind_of_ok (binding_run found x), none]
  rfl

theorem Agrees.content (A : h.Agrees c l) (there : h.has (.frame f) = true) :
    content? f x h = .ok (l f x) h := by
  obtain ⟨b, found⟩ := has_frame_iff.mp there
  have same : h.bound? f x = b.find? x := by rw [bound?, found, Option.bind_some]
  unfold content?
  rw [bind_of_ok (binding_run found x), ← same]
  rcases A.names f x there with ⟨none, empty⟩ | ⟨v, s, bound, B, shown⟩
  · rw [none, empty]
    rfl
  · obtain ⟨cell, found, rfl, _, readable⟩ := B.readable
    rw [bound, shown]
    change (Op.vector v >>= _) h = _
    rw [vector_bind found, bind_of_ok (toList_run A.intact found readable)]
    rfl

theorem Agrees.through {α : Type} (A : h.Agrees c l) (there : h.has (.frame f) = true)
    {op : VectorId → Op α} {answers : α → Heap → Prop} {stops : Fault → Heap → Prop}
    (bound : ∀ v s, h.bound? f x = some (.vector v) → h.Bound v c s → l f x = some s.content →
      Outcome (op v) h answers stops) (unbound : l f x = none → stops .dead h) :
    Outcome (boundVector f x >>= op) h answers stops := by
  rcases A.names f x there with ⟨none, empty⟩ | ⟨v, s, binding, B, content⟩
  · exact .of_error (bind_of_error (boundVector_none there none)) (unbound empty)
  · have run : (boundVector f x >>= op) h = op v h := bind_of_ok (boundVector_run binding)
    unfold Outcome
    rw [run]
    exact bound v s binding B content

/-! ### One statement -/

theorem Bound.assignable (A : h.Agrees c l) (bound : h.bound? f x = some (.vector v))
    (B : h.Bound v c s) : h.Assignable c v s :=
  ⟨B.toTracked, B.plain, fun g y w b there => A.apart f x g y v w b bound there⟩

theorem Agrees.promote (A : h.Agrees c l) (B : h.Bound v c s) :
    Outcome (discard (Op.promote v)) h (fun _ h' => h'.Agrees c l)
      (fun fault h' => Distinct fault → h'.Agrees c l) := by
  obtain ⟨cell, found, rfl, _⟩ := B.readable
  have kept : ∀ h', h.Moves (Only v) Nowhere h' → h.Leaves v (h.sequence cell) h' →
      h'.Agrees c l := by
    intro h' M leaves
    refine A.move M (fun g y w s₀ _ shows => ?_)
    by_cases same : w = v
    · subst same
      cases B.sequence.symm.trans shows
      exact ⟨_, SharingState.le_refl _, leaves⟩
    · exact M.leaves_untouched A.intact same (fun _ _ => id) shows
  refine Outcome.map (Outcome.mono (promote_performs A.intact found) ?_ ?_)
  · rintro k h' ⟨M, leaves, _⟩
    exact kept h' M leaves
  · rintro fault h' (⟨M, leaves, _⟩ | ⟨⟨k, rfl⟩, _⟩) distinct
    · exact kept h' M leaves
    · exact absurd rfl (distinct k)

theorem Agrees.ensureHandle (A : h.Agrees c l) (B : h.Bound v c s) :
    Outcome (discard (Op.ensureHandle (.vector v))) h (fun _ h' => h'.Agrees c l)
      (fun fault h' => Distinct fault → h'.Agrees c l) := by
  have P := ensureHandle_performs (T := Nowhere) (B := Nowhere) A.intact (o := .vector v)
    (isAlive_iff_contextOf.mpr ⟨c, B.context⟩)
  refine Outcome.map (Outcome.mono P ?_ ?_)
  · rintro k h' ⟨M, _⟩
    exact A.apart_from M (fun _ _ _ _ => ⟨id, fun _ _ => id⟩)
  · rintro fault h' (⟨M, _⟩ | ⟨⟨k, rfl⟩, _⟩) distinct
    · exact A.apart_from M (fun _ _ _ _ => ⟨id, fun _ _ => id⟩)
    · exact absurd rfl (distinct k)

theorem Agrees.pass (A : h.Agrees c l) {as : List Argument}
    (bound : ∀ a ∈ as, ∃ g y, h.bound? g y = some a.value) :
    Outcome (Op.passArguments as) h (fun _ h' => h'.Agrees c l)
      (fun fault _ => ¬ Distinct fault) := by
  have alive : ∀ a ∈ as, ∀ r ∈ a.value.refs, h.has r = true := by
    intro a ha r hr
    obtain ⟨g, y, there⟩ := bound a ha
    exact A.intact.has_of_mem_refs (bound_held there r hr)
  have P : Performs _ _ (Op.passArguments as) h _ (fun _ _ => False) :=
    passArguments_performs A.intact as alive
  refine Outcome.mono P ?_ ?_
  · rintro _ h' ⟨M, shares⟩
    exact A.shares M shares
  · rintro fault h' (⟨_, never⟩ | ⟨⟨k, rfl⟩, _⟩) distinct
    · exact never
    · exact distinct k rfl

theorem Agrees.fresh (A : h.Agrees c l) {made : Construction}
    (ok : (Statement.make f x made).Admissible h c) :
    Outcome ((Statement.make f x made).op c) h
      (fun _ h' => ∀ fresh, (Statement.make f x made).Starts c h fresh →
        h'.Agrees c (l.bind f x (some fresh)))
      (fun fault h' => Distinct fault → h'.Agrees c l) := by
  obtain ⟨admissible, plain⟩ := ok.made f x made rfl
  have made_agrees := A.make admissible plain (fun type b length own =>
    ok.apart f x type b length (own ▸ rfl))
  refine Outcome.bind_run (fun fault h' run => made_agrees.error run) ?_
  intro v h₁ run
  obtain ⟨A₁, frames, s, begins, V⟩ := made_agrees.ok run
  have there : h₁.has (.frame f) = true := by
    rw [has, frames]
    exact ok.frames f (List.mem_singleton_self f)
  refine Outcome.map (Outcome.mono (A₁.assign V there x) ?_ ?_)
  · intro _ h' A' fresh starts
    obtain ⟨v', h₁', s', run', begins', rfl⟩ := starts f x made rfl
    cases run.symm.trans run'
    rw [begins'.unique plain begins]
    exact A'
  · exact fun fault _ taken distinct => absurd distinct taken

/-- What a statement does to names is what it does to the ledger. -/
theorem Agrees.statement (A : h.Agrees c l) {st : Statement} (ok : st.Admissible h c) :
    Outcome (st.op c) h
      (fun _ h' => ∀ fresh, st.Starts c h fresh → h'.Agrees c (l.run fresh st).2)
      (fun fault h' => Distinct fault → h'.Agrees c l) := by
  cases st with
  | make f x made => exact A.fresh ok
  | rebind f x g y =>
    obtain ⟨there, source⟩ := List.forall_mem_cons.mp ok.frames
    refine A.through (source g (List.mem_singleton_self g)) ?_ (fun _ _ => A)
    intro v s bound B content
    refine Outcome.map (Outcome.mono (A.assign (B.assignable A bound) there x) ?_ ?_)
    · intro _ h' A' fresh _
      simp only [Ledger.run, content]
      exact A'
    · exact fun fault _ taken distinct => absurd distinct taken
  | remove f x =>
    have there := ok.frames f (List.mem_singleton_self f)
    exact Outcome.map ((A.remove there x).mono (fun _ _ A' _ _ => A') (fun _ _ never => never.elim))
  | pass as =>
    exact (A.pass (ok.bound as rfl)).mono (fun _ _ A' _ _ => A')
      (fun _ _ taken distinct => absurd distinct taken)
  | ensureHandle f x =>
    refine A.through (ok.frames f (List.mem_singleton_self f)) ?_ (fun _ _ => A)
    intro v s _ B _
    exact (A.ensureHandle B).mono (fun _ _ A' _ _ => A') (fun _ _ => id)
  | promote f x =>
    refine A.through (ok.frames f (List.mem_singleton_self f)) ?_ (fun _ _ => A)
    intro v s _ B _
    exact (A.promote B).mono (fun _ _ A' _ _ => A') (fun _ _ => id)
  | modify f x i e =>
    refine A.through (ok.frames f (List.mem_singleton_self f)) ?_ (fun _ _ => A)
    intro v s bound _ _
    refine (A.modify bound (ok.own f x i e rfl) i).mono (fun _ _ o _ _ => o.2) ?_
    intro fault h' stop distinct
    obtain ⟨refused, A'⟩ := stop distinct
    rwa [Ledger.modify_of_error refused] at A'

/-- A write through a name is refused just when the ledger refuses it, and never since it would show
elsewhere. -/
theorem Agrees.refusal (A : h.Agrees c l) (there : h.has (.frame f) = true) {e : Elem}
    (own : h.Own c [e]) (i : Nat) :
    Outcome ((Statement.modify f x i e).op c) h (fun _ _ => (l.modify f x i e).1 = .ok ())
      (fun fault _ => fault ≠ .panic .sharedWrite ∧
        (Distinct fault → (l.modify f x i e).1 = .error fault)) := by
  have stop : ∀ fault, (Distinct fault → (l.modify f x i e).1 = .error fault) →
      fault ≠ .panic .sharedWrite ∧ (Distinct fault → (l.modify f x i e).1 = .error fault) := by
    rintro fault refused
    refine ⟨?_, refused⟩
    rintro rfl
    exact Ledger.modify_unshared l f x i e (refused (fun _ => nofun))
  refine A.through there ?_ ?_
  · intro v s bound _ _
    exact (A.modify bound own i).mono (fun _ _ o => o.1)
      (fun fault _ refused => stop fault (fun distinct => (refused distinct).1))
  · intro unbound
    refine stop .dead (fun _ => ?_)
    simp only [Ledger.modify, unbound]

/-! ### Programs -/

theorem agrees_of_unbound (I : h.Intact) (B : h.Balanced) (unbound : ∀ f x, h.bound? f x = none) :
    h.Agrees c (fun _ _ => none) where
  intact := I
  balanced := B
  names f x _ := .inl ⟨unbound f x, rfl⟩
  shared f x _ _ _ _ bound := absurd ((unbound f x).symm.trans bound) (by simp)
  apart f x _ _ _ _ _ bound := absurd ((unbound f x).symm.trans bound) (by simp)

theorem Agrees.aside (A : h.Agrees c l) {call : Call} (ok : call.Admissible h)
    (plain : call.binds = false)
    (run : call.op h = .ok () h' ∨ ∃ fault, Distinct fault ∧ call.op h = .error fault h')
    (apart : ∀ f x v, h.bound? f x = some (.vector v) → ¬ call.touches h v ∧
      ∀ b, h.foreign? v = some b → ¬ call.writes h b) : h'.Agrees c l := by
  have P := call.settles A.intact ok plain
  rcases run with run | ⟨fault, distinct, run⟩
  · exact A.apart_from (P.ok run).1 apart
  · rcases P.error run with ⟨M, _⟩ | ⟨⟨k, rfl⟩, _⟩
    · exact A.apart_from M apart
    · exact absurd rfl (distinct k)

theorem Agrees.bury (A : h.Agrees c l) {roots : List Ref} {r : Ref} (dead : r ∈ h.dead roots) :
    (h.bury r).Agrees c l := by
  obtain ⟨_, _, unheld, _⟩ := mem_dead_iff.mp dead
  refine A.shed (bury_sheds A.intact unheld) (bury_balanced A.intact A.balanced unheld) ?_
  intro v held
  have other : r ≠ .vector v := fun same => unheld (same ▸ held)
  rw [has, bury_vectors]
  exact (has_without other).trans (A.intact.has_of_mem_refs held)

theorem Agrees.work (A : h.Agrees c l) (c' : ContextId) : (h.work c').Agrees c l := by
  refine A.shed (work_sheds A.intact c') (work_balanced A.intact A.balanced c') ?_
  intro v held
  rw [has, work_vectors]
  exact A.intact.has_of_mem_refs held

theorem agrees_after_program {h₀ : Heap} (I : h₀.Intact) (B : h₀.Balanced)
    (unbound : ∀ f x, h₀.bound? f x = none) (program : Interprets c h₀ h l) : h.Agrees c l := by
  induction program with
  | start => exact agrees_of_unbound I B unbound
  | answer _ st ok run fresh starts ih => exact (ih.statement ok).ok run fresh starts
  | stop _ st ok run distinct ih => exact (ih.statement ok).error run distinct
  | aside _ call ok plain run apart ih => exact ih.aside ok plain run apart
  | bury _ roots r dead ih => exact ih.bury dead
  | work _ c' ih => exact ih.work c'
  | shutdown _ c' ih =>
    exact ih.shed (shutdown_sheds ih.intact c') (shutdown_balanced ih.balanced c')
      (fun v held => ih.intact.has_of_mem_refs held)

/-- After any run in which no handle was registered twice, and from where no name was bound on: each
name shows what it would if every assignment copied; a write through a name is refused just when it
would be then; and it is never stopped since its vector is shared. Strings that are written are of the
context of the vectors, and no two fresh vectors are over the same foreign memory. -/
theorem names_after_program {supply : Nat → Nat → Option Address} {past : List Heap} {h₀ : Heap}
    (run : Run Distinct { supply } past h₀) (unbound : ∀ f x, h₀.bound? f x = none)
    (program : Interprets c h₀ h l) :
    (∀ f x, h.has (.frame f) = true → content? f x h = .ok (l f x) h) ∧
    ∀ f x i e, h.has (.frame f) = true → h.Own c [e] →
      Outcome ((Statement.modify f x i e).op c) h (fun _ _ => (l.modify f x i e).1 = .ok ())
        (fun fault _ => fault ≠ .panic .sharedWrite ∧
          (Distinct fault → (l.modify f x i e).1 = .error fault)) := by
  have A := agrees_after_program (run_intact (intact_of_supply supply) run) (run_balanced run)
    unbound program
  constructor
  · intro f x there
    exact A.content there
  · intro f x i e there own
    exact A.refusal there own i

/-- Two names for one vector, which is promoted before it is written through one of them. -/
theorem names_after_write :
    ∃ past h₀ h l, Run Distinct {} past h₀ ∧ Interprets ⟨0⟩ h₀ h l ∧
      content? ⟨0⟩ "x" h = .ok (some ⟨.int, [.int 1, .int 2]⟩) h ∧
      content? ⟨1⟩ "y" h = .ok (some ⟨.int, [.int 5, .int 2]⟩) h := by
  have run₁ : Run Distinct {} [{}] _ :=
    Run.start.step (.answer (.newContext .default) ⟨by decide, by simp⟩ rfl)
  have run₂ := run₁.step (.answer .newFrame ⟨by decide, by simp⟩ rfl)
  have run₃ := run₂.step (.answer .newFrame ⟨by decide, by simp⟩ rfl)
  let h₀ : Heap := Op.after Op.newFrame (Op.after Op.newFrame
    (Op.after (Op.addContext (.ofConfig .default)) {}))
  have unbound : ∀ f x, h₀.bound? f x = none := by
    intro f x
    cases found : h₀.frames.find? f with
    | none => rw [bound?, found, Option.bind_none]
    | some b =>
      have empty : b ∈ [Table.empty, Table.empty] := (h₀.frames.mem_values_iff b).mpr ⟨f, found⟩
      have none : b.find? x = .none := by
        rcases List.mem_cons.mp empty with rfl | last
        · rfl
        · rw [List.mem_singleton.mp last]
          rfl
      rw [bound?, found, Option.bind_some, none]
  have program₁ : Interprets ⟨0⟩ h₀ _ _ := Interprets.start.answer
    (.make ⟨0⟩ "x" (.new .int [.int 1, .int 2]))
    ⟨by decide, by simp, by simp, fun _ _ _ own => by
      cases own
      exact ⟨⟨by decide, fun _ _ own => by cases own; exact own_of_inline (by decide), by simp⟩,
        by decide⟩, fun _ _ _ _ _ own => absurd own (by simp)⟩
    (Op.run_of_ok (by decide +kernel)) ⟨.int, [.int 1, .int 2]⟩
    (fun _ _ _ own => by cases own; exact ⟨_, _, _, rfl, rfl, rfl⟩)
  have program₂ := program₁.answer (.rebind ⟨1⟩ "y" ⟨0⟩ "x")
    ⟨by decide, by simp, by simp, by simp, by simp⟩
    (Op.run_of_ok (by decide +kernel)) ⟨.int, []⟩ (by simp [Statement.Starts])
  have program₃ := program₂.answer (.promote ⟨0⟩ "x")
    ⟨by decide, by simp, by simp, by simp, by simp⟩
    (Op.run_of_ok (by decide +kernel)) ⟨.int, []⟩ (by simp [Statement.Starts])
  have program₄ := program₃.answer (.modify ⟨1⟩ "y" 0 (.int 5))
    ⟨by decide, by simp, fun _ _ _ _ own => by cases own; exact own_of_inline (by decide), by simp,
      by simp⟩
    (Op.run_of_ok (by decide +kernel)) ⟨.int, []⟩ (by simp [Statement.Starts])
  obtain ⟨shows, _⟩ := names_after_program run₃ unbound program₄
  exact ⟨_, h₀, _, _, run₃, program₄, shows ⟨0⟩ "x" (by decide +kernel), shows ⟨1⟩ "y" (by decide +kernel)⟩

/-- Names show something else where these conditions fail: a string of another context that is written
reads as another string, a handle that is drawn twice stops a write, and a write to one of two vectors
over the same foreign memory shows in the other. -/
theorem names_show_otherwise :
    (∃ past h h', Run Distinct {} past h ∧ (content? ⟨0⟩ "x").result h = .ok (some ⟨.str, [.str ⟨0⟩]⟩) ∧
      Op.after ((Statement.modify ⟨0⟩ "x" 0 (.str ⟨1⟩)).op ⟨0⟩) h = h' ∧
      (content? ⟨0⟩ "x").result h' = .ok (some ⟨.str, [.str ⟨0⟩]⟩) ∧
      ∀ l : Ledger, l ⟨0⟩ "x" = some ⟨.str, [.str ⟨0⟩]⟩ →
        (l.modify ⟨0⟩ "x" 0 (.str ⟨1⟩)).2 ⟨0⟩ "x" = some ⟨.str, [.str ⟨1⟩]⟩) ∧
    (∃ past h, Run Distinct {} past h ∧ (content? ⟨0⟩ "x").result h = .ok (some ⟨.str, [.str ⟨0⟩]⟩) ∧
      ((Statement.modify ⟨0⟩ "x" 0 (.str ⟨1⟩)).op ⟨0⟩).result h =
        .error (.panic (.registeredTwice ⟨1⟩)) ∧
      ∀ l : Ledger, l ⟨0⟩ "x" = some ⟨.str, [.str ⟨0⟩]⟩ →
        (l.modify ⟨0⟩ "x" 0 (.str ⟨1⟩)).1 = .ok ()) ∧
    ∃ past h h', Run Distinct {} past h ∧ (content? ⟨0⟩ "x").result h = .ok (some ⟨.raw, [.raw 1]⟩) ∧
      (content? ⟨0⟩ "y").result h = .ok (some ⟨.raw, [.raw 1]⟩) ∧
      Op.after ((Statement.modify ⟨0⟩ "x" 0 (.raw 2)).op ⟨0⟩) h = h' ∧
      (content? ⟨0⟩ "y").result h' = .ok (some ⟨.raw, [.raw 2]⟩) ∧
      ∀ l : Ledger, l ⟨0⟩ "y" = some ⟨.raw, [.raw 1]⟩ →
        (l.modify ⟨0⟩ "x" 0 (.raw 2)).2 ⟨0⟩ "y" = some ⟨.raw, [.raw 1]⟩ := by
  have run₁ : Run Distinct {} [{}] _ :=
    Run.start.step (.answer (.newContext .default) ⟨by decide, by simp⟩ rfl)
  refine ⟨?_, ?_, ?_⟩
  · have run₂ := run₁.step (.answer (.newContext .default) ⟨by decide, by simp⟩ rfl)
    have run₃ := run₂.step (.answer (.newString ⟨0⟩ "a") ⟨by decide, by simp⟩ rfl)
    have run₄ := run₃.step (.answer (.newString ⟨1⟩ "b") ⟨by decide, by simp⟩ rfl)
    have run₅ := run₄.step (.answer (.newVector ⟨0⟩ .str [.str ⟨0⟩]) ⟨by decide, by simp⟩ rfl)
    have run₆ := run₅.step (.answer .newFrame ⟨by decide, by simp⟩ rfl)
    have run₇ := run₆.step (.answer (.assign ⟨0⟩ "x" (.vector ⟨0⟩)) ⟨by decide, by simp⟩ rfl)
    have run₈ := run₇.step
      (.answer (.promote ⟨0⟩) ⟨by decide, by simp⟩ (Op.run_of_ok (by decide +kernel)))
    refine ⟨_, _, _, run₈, by decide +kernel, rfl, by decide +kernel, fun l held => ?_⟩
    simp [Ledger.modify, held, Content.set, Ledger.bind, Elem.type]
  · have run₂ : Run Distinct {} [{}] _ := Run.start.step
      (.answer (.newContext { handles := ⟨1, 0x8000000000000000⟩ }) ⟨by decide, by simp⟩ rfl)
    have run₃ := run₂.step (.answer (.newString ⟨0⟩ "a") ⟨by decide, by simp⟩ rfl)
    have run₄ := run₃.step (.answer (.newString ⟨0⟩ "b") ⟨by decide, by simp⟩ rfl)
    have run₅ := run₄.step (.answer (.newVector ⟨0⟩ .str [.str ⟨0⟩]) ⟨by decide, by simp⟩ rfl)
    have run₆ := run₅.step (.answer .newFrame ⟨by decide, by simp⟩ rfl)
    have run₇ := run₆.step (.answer (.assign ⟨0⟩ "x" (.vector ⟨0⟩)) ⟨by decide, by simp⟩ rfl)
    have run₈ := run₇.step
      (.answer (.promote ⟨0⟩) ⟨by decide, by simp⟩ (Op.run_of_ok (by decide +kernel)))
    refine ⟨_, _, run₈, by decide +kernel, by decide +kernel, fun l held => ?_⟩
    simp [Ledger.modify, held, Content.set, Elem.type]
  · have run₂ := run₁.step (.answer (.newBuffer [1]) ⟨by decide, by simp⟩ rfl)
    have run₃ := run₂.step (.answer (.adopt ⟨0⟩ .raw (some ⟨0⟩) 1)
      ⟨by decide, fun _ _ _ _ own => by cases own; exact ⟨_, rfl, by decide⟩⟩ rfl)
    have run₄ := run₃.step (.answer (.adopt ⟨0⟩ .raw (some ⟨0⟩) 1)
      ⟨by decide, fun _ _ _ _ own => by cases own; exact ⟨_, rfl, by decide⟩⟩ rfl)
    have run₅ := run₄.step (.answer .newFrame ⟨by decide, by simp⟩ rfl)
    have run₆ := run₅.step (.answer (.assign ⟨0⟩ "x" (.vector ⟨0⟩)) ⟨by decide, by simp⟩ rfl)
    have run₇ := run₆.step (.answer (.assign ⟨0⟩ "y" (.vector ⟨1⟩)) ⟨by decide, by simp⟩ rfl)
    refine ⟨_, _, _, run₇, by decide +kernel, by decide +kernel, rfl, by decide +kernel,
      fun l held => ?_⟩
    exact (l.modify_elsewhere (by decide) 0 _).trans held

end Heap
end VectorHeap
