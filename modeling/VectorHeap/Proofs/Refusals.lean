import VectorHeap.Proofs.DataAddress
import VectorHeap.Proofs.Heap.Strays

/-! Registrations that are refused. The handle that was drawn is taken, but its entry is gone by then: it
names a peer that nobody has, in place of the peer of the object that shows the handle. No later step gives
it back. -/
namespace VectorHeap.Heap

open Op

variable {allowed : Fault → Prop} {T : VectorId → Prop} {B : BufferId → Prop} {h h' h₀ : Heap}
  {past : List Heap} {log : List Entry} {call : Call} {c : ContextId} {k : Handle} {o : Object}
  {p : PeerId}

/-! ### What lookups and objects say -/

theorem Stray.unresolved (S : h.Stray c k p) (B : h.Bears o c k) : h.resolve? c k ≠ some o := by
  intro resolved
  obtain ⟨ctx, found, entry, _⟩ := S.entry
  obtain ⟨q, hq, _, alone⟩ := S.owner
  obtain ⟨ctx', i, q', found', entry', hq', _, owner⟩ := resolve_iff_entry.mp resolved
  cases found.symm.trans found'
  cases entry.symm.trans entry'
  cases hq.symm.trans hq'
  exact alone (owner ▸ B)

theorem Intact.bears_iff (I : h.Intact) :
    h.Bears o c k ↔ h.contextOf? o = some c ∧ k.isSome = true ∧ h.handleOf o = k := by
  constructor
  · rintro ⟨own, i, q, pointer, hq, rfl⟩
    have shown := handleOf_eq pointer hq
    exact ⟨own, shown ▸ I.handleOf_isSome pointer, shown⟩
  · rintro ⟨own, named, rfl⟩
    obtain ⟨i, q, pointer, hq, shown⟩ := peerOf_of_handleOf named
    exact ⟨own, i, q, pointer, hq, shown.symm⟩

theorem Moves.resolve (I : h.Intact) (M : h.Moves T B h') (resolved : h.resolve? c k = some o) :
    h'.resolve? c k = some o := by
  obtain ⟨F, L⟩ := M.history I
  obtain ⟨ctx, i, q, found, entry, hq, alive, owner⟩ := resolve_iff_entry.mp resolved
  obtain ⟨ctx', found', entry'⟩ := L.kept c ctx k i found entry
  obtain ⟨q', hq'⟩ := (M.intact I).grounded i (.entry c ctx' k found' entry')
  obtain ⟨q₀, hq₀, owner', _⟩ := F.peer i q' (Store.lt_next_of_find _ i q hq) hq'
  cases hq.symm.trans hq₀
  exact resolve_iff_entry.mpr
    ⟨ctx', i, q', found', entry', hq', M.isAlive I alive, owner'.trans owner⟩

theorem Moves.bears (I : h.Intact) (M : h.Moves T B h') (B' : h.Bears o c k) : h'.Bears o c k := by
  obtain ⟨own, named, shown⟩ := I.bears_iff.mp B'
  exact (M.intact I).bears_iff.mpr
    ⟨M.contextOf I own, named, (M.handleOf I (shown ▸ named)).trans shown⟩

theorem Extends.bears (E : h.Extends h') (B : h.Bears o c k) : h'.Bears o c k := by
  obtain ⟨own, i, q, pointer, hq, handle⟩ := B
  exact ⟨E.contextOf own, i, q, E.peerOf pointer, E.peers i q hq, handle⟩

/-! ### Strays stay -/

/-- Where a stray has the entry, a stray has it after every step that leaves the context. -/
theorem step_stray (I : h.Intact) (s : Step allowed h h') (there : h'.has (.context c) = true)
    (S : h.Stray c k p) : ∃ p', h'.Stray c k p' := by
  cases s with
  | answer call ok run => exact ⟨p, (((call.posts I).ok run).1.keeps I.grounded).2.stray S⟩
  | stop call f ok run expected =>
    rcases (call.posts I).error run with posted | ⟨_, h₁, posted, refused⟩
    · exact ⟨p, (posted.keeps I.grounded).2.stray S⟩
    · obtain ⟨G, K⟩ := posted.keeps I.grounded
      exact refused.stray G (K.stray S)
  | bury roots r dead =>
    refine ⟨p, (bury_cleared I (mem_dead_iff.mp dead).2.2.1).stray ?_ there S⟩
    rintro d ⟨o, _, _, pointer⟩
    exact S.unpointed o pointer
  | work d =>
    refine ⟨p, (work_cleared I d).stray ?_ there S⟩
    rintro e ⟨ctx, found, queued⟩
    exact S.unqueued e ctx found queued
  | shutdown d => exact ⟨p, (shutdown_cleared (P := fun _ _ => False) h d).stray (fun _ => id) there S⟩

theorem run_stray (I : h₀.Intact) (run : Run allowed h₀ past h) (there : h.has (.context c) = true)
    (S : h₀.Stray c k p) : ∃ p', h.Stray c k p' := by
  -- No identity is given out twice, so a context that is there at the end was there all the time.
  suffices old : c.index < h.contexts.next ∧ (h.has (.context c) = true → ∃ p', h.Stray c k p') from
    old.2 there
  clear there
  induction run with
  | start =>
    obtain ⟨ctx, found, _⟩ := S.entry
    exact ⟨Store.lt_next_of_find _ c ctx found, fun _ => ⟨p, S⟩⟩
  | step run last ih =>
    have I' := run_intact I run
    have F := step_follows I' last
    refine ⟨Nat.lt_of_lt_of_le ih.1 F.contexts, fun there => ?_⟩
    obtain ⟨p', S'⟩ := ih.2 (F.context c ih.1 there)
    exact step_stray I' last there S'

theorem refused_leaves (I : h.Intact) (ok : call.Admissible h)
    (stopped : call.op h = .error (.panic (.registeredTwice k)) h') :
    ∃ c p, h.peers.find? p = none ∧ h'.Stray c k p ∧
      (∀ d k' o, ¬ (d = c ∧ k' = k) → h.resolve? d k' = some o → h'.resolve? d k' = some o) ∧
      ∀ d k' o, h.Bears o d k' → h'.Bears o d k' := by
  rcases (call.ends I ok).error stopped with ⟨proper, _⟩ | ⟨_, h₁, M, R⟩
  · cases proper
  · have I₁ := M.intact I
    obtain ⟨c, p, new, S, others⟩ := R.leaves I₁.grounded
    have old : h.peers.find? p = none := by
      refine Option.eq_none_iff_forall_ne_some.mpr (fun q hq => ?_)
      have issued := Nat.lt_of_lt_of_le (Store.lt_next_of_find _ p q hq) (M.history I).1.peers
      exact absurd issued (Nat.not_lt.mpr new)
    exact ⟨c, p, old, S, fun d k' o other resolved => others d k' o other (M.resolve I resolved),
      fun d k' o B => (R.extends I₁).bears (M.bears I B)⟩

/-- After any run in which no peer of a live object was released by hand: a call that is stopped since the
handle that it drew is registered already leaves the entry of that handle with a new peer that no object has.
Every object shows the handle that it showed, and all other handles are found as before. But from then on, for
as long as the context lives, the handle has an entry that is no object's, and a site where sites are traced,
and looking it up never finds an object that shows it. -/
theorem refused_handle_after_run {supply : Nat → Nat → Option Address} (run : Logged { supply } log h)
    (ok : call.Admissible h) (stopped : call.op h = .error (.panic (.registeredTwice k)) h') :
    ∃ c p, h.peers.find? p = none ∧ h'.Stray c k p ∧
      (∀ d k' o, h.Bears o d k' → h'.Bears o d k') ∧
      (∀ d k' o, ¬ (d = c ∧ k' = k) → h.resolve? d k' = some o → h'.resolve? d k' = some o) ∧
      ∀ past later, Run (fun _ => True) h' past later → later.has (.context c) = true →
        (∃ i, later.Stray c k i) ∧ ∀ o, later.Bears o c k → later.resolve? c k ≠ some o := by
  have I := run.intact (intact_of_supply supply)
  obtain ⟨c, p, new, S, others, bearers⟩ := refused_leaves I ok stopped
  refine ⟨c, p, new, S, bearers, others, fun past later rest there => ?_⟩
  have last : Step (fun _ => True) h h' := .stop call _ ok stopped trivial
  obtain ⟨i, S'⟩ := run_stray (step_intact I last) rest there S
  exact ⟨⟨i, S'⟩, fun o => S'.unresolved⟩

/-- A string that is to be stored in a promoted vector draws the handle of the one that is stored there. The
vector shows the new one, and when that is dropped the old one is not found again. -/
theorem refused_handle_after_write :
    ∃ log h h' past later i, Logged {} log h ∧ h.resolve? ⟨0⟩ ⟨1⟩ = some (.string ⟨0⟩) ∧
      (Call.set ⟨0⟩ 0 (.str ⟨1⟩)).op h = .error (.panic (.registeredTwice ⟨1⟩)) h' ∧
      (getElem ⟨0⟩ 0).result h' = .ok (.str ⟨1⟩) ∧ Run (fun _ => True) h' past later ∧
      later.Stray ⟨0⟩ ⟨1⟩ i ∧ later.Bears (.string ⟨0⟩) ⟨0⟩ ⟨1⟩ ∧
      later.resolve? ⟨0⟩ ⟨1⟩ ≠ some (.string ⟨0⟩) := by
  let h₁ : Heap := (Call.newContext { handles := ⟨1, 0x8000000000000000⟩ }).op.after {}
  let h₂ : Heap := (Call.newString ⟨0⟩ "a").op.after h₁
  let h₃ : Heap := (Call.newString ⟨0⟩ "b").op.after h₂
  let h₄ : Heap := (Call.newVector ⟨0⟩ .str [.str ⟨0⟩]).op.after h₃
  let h₅ : Heap := (Call.promote ⟨0⟩).op.after h₄
  let h₆ : Heap := (Call.set ⟨0⟩ 0 (.str ⟨1⟩)).op.after h₅
  have run₁ : Logged {} _ h₁ := Logged.start.call (.newContext { handles := ⟨1, 0x8000000000000000⟩ })
    ⟨by decide, by simp⟩ (.answer rfl)
  have run₂ : Logged {} _ h₂ := run₁.call (.newString ⟨0⟩ "a") ⟨by decide, by simp⟩ (.answer rfl)
  have run₃ : Logged {} _ h₃ := run₂.call (.newString ⟨0⟩ "b") ⟨by decide, by simp⟩ (.answer rfl)
  have run₄ : Logged {} _ h₄ := run₃.call (.newVector ⟨0⟩ .str [.str ⟨0⟩])
    ⟨by decide +kernel, by simp⟩ (.answer (run_of_ok (by decide +kernel)))
  have run₅ : Logged {} _ h₅ := run₄.call (.promote ⟨0⟩) ⟨by decide +kernel, by simp⟩
    (.answer (run_of_ok (by decide +kernel)))
  have ok : (Call.set ⟨0⟩ 0 (.str ⟨1⟩)).Admissible h₅ := ⟨by decide +kernel, by simp⟩
  have stopped : (Call.set ⟨0⟩ 0 (.str ⟨1⟩)).op h₅ = .error (.panic (.registeredTwice ⟨1⟩)) h₆ :=
    run_of_error (by decide +kernel)
  obtain ⟨c, p, _, _, _, others, gone⟩ := refused_handle_after_run run₅ ok stopped
  have before : h₅.resolve? ⟨0⟩ ⟨1⟩ = some (.string ⟨0⟩) := by decide +kernel
  have taken : c = ⟨0⟩ := by
    refine Decidable.byContradiction (fun other => ?_)
    have kept := others ⟨0⟩ ⟨1⟩ (.string ⟨0⟩) (fun same => other same.1.symm) before
    exact absurd kept (by decide +kernel)
  subst taken
  have rest : Run (fun _ => True) h₆ _ (h₆.bury (.string ⟨1⟩)) :=
    Run.start.step (.bury [.context ⟨0⟩, .vector ⟨0⟩] (.string ⟨1⟩) (by decide +kernel))
  obtain ⟨⟨i, S⟩, lost⟩ := gone _ _ rest (by decide +kernel)
  have I := run_intact ((run₅.call _ ok (.stop _ stopped)).intact (intact_of_supply _)) rest
  have shown : (h₆.bury (.string ⟨1⟩)).Bears (.string ⟨0⟩) ⟨0⟩ ⟨1⟩ :=
    I.bears_iff.mpr ⟨by decide +kernel, by decide, by decide +kernel⟩
  exact ⟨_, h₅, h₆, _, _, i, run₅, before, stopped, by decide +kernel, rest, S, shown, lost _ shown⟩

/-- Of three vectors the third draws the handle of the first one. The entry and the site of the handle are
those of the third then, so the first is not found any more, and when all of them are gone and nothing is left
to release the entry is still there. -/
theorem refused_handle_misleads :
    ∃ log h h' past later, Logged {} log h ∧
      (Call.ensureHandle (.vector ⟨2⟩)).op h = .error (.panic (.registeredTwice ⟨1⟩)) h' ∧
      (Op.lookup ⟨0⟩ ⟨1⟩).result h = .ok (.vector ⟨0⟩) ∧
      (h.contexts.find? ⟨0⟩).bind (·.registry.site? ⟨1⟩) = some "int vector of length 0" ∧
      h'.handleOf (.vector ⟨0⟩) = ⟨1⟩ ∧ (Op.lookup ⟨0⟩ ⟨1⟩).result h' = .ok (.vector ⟨2⟩) ∧
      (h'.contexts.find? ⟨0⟩).bind (·.registry.site? ⟨1⟩) = some "int vector of length 2" ∧
      Run (fun _ => True) h' past later ∧ later.vectors.ids = [] ∧ later.strings.ids = [] ∧
      (later.contexts.find? ⟨0⟩).map (·.reclaimer.queue) = some [] ∧
      ((later.contexts.find? ⟨0⟩).bind (·.registry.peer? ⟨1⟩)).isSome = true := by
  let config : Config := { traceSites := true, handles := ⟨1, 0x8000000000000000⟩ }
  let h₁ : Heap := (Call.newContext config).op.after {}
  let h₂ : Heap := (Call.newVector ⟨0⟩ .int []).op.after h₁
  let h₃ : Heap := (Call.newVector ⟨0⟩ .int [.int 1]).op.after h₂
  let h₄ : Heap := (Call.newVector ⟨0⟩ .int [.int 1, .int 2]).op.after h₃
  let h₅ : Heap := (Call.ensureHandle (.vector ⟨0⟩)).op.after h₄
  let h₆ : Heap := (Call.ensureHandle (.vector ⟨1⟩)).op.after h₅
  let h₇ : Heap := (Call.ensureHandle (.vector ⟨2⟩)).op.after h₆
  have run₁ : Logged {} _ h₁ := Logged.start.call (.newContext config) ⟨by decide, by simp⟩ (.answer rfl)
  have run₂ : Logged {} _ h₂ := run₁.call (.newVector ⟨0⟩ .int []) ⟨by decide, by simp⟩
    (.answer (run_of_ok (by decide +kernel)))
  have run₃ : Logged {} _ h₃ := run₂.call (.newVector ⟨0⟩ .int [.int 1])
    ⟨by decide +kernel, by simp⟩ (.answer (run_of_ok (by decide +kernel)))
  have run₄ : Logged {} _ h₄ := run₃.call (.newVector ⟨0⟩ .int [.int 1, .int 2])
    ⟨by decide +kernel, by simp⟩ (.answer (run_of_ok (by decide +kernel)))
  have run₅ : Logged {} _ h₅ := run₄.call (.ensureHandle (.vector ⟨0⟩)) ⟨by decide +kernel, by simp⟩
    (.answer (run_of_ok (by decide +kernel)))
  have run₆ : Logged {} _ h₆ := run₅.call (.ensureHandle (.vector ⟨1⟩)) ⟨by decide +kernel, by simp⟩
    (.answer (run_of_ok (by decide +kernel)))
  have stopped : (Call.ensureHandle (.vector ⟨2⟩)).op h₆ =
      .error (.panic (.registeredTwice ⟨1⟩)) h₇ := run_of_error (by decide +kernel)
  have rest₁ : Run (fun _ => True) h₇ _ (h₇.bury (.vector ⟨2⟩)) := Run.start.step
    (.bury [.context ⟨0⟩, .vector ⟨0⟩, .vector ⟨1⟩] (.vector ⟨2⟩) (by decide +kernel))
  have rest₂ := rest₁.step (.bury [.context ⟨0⟩, .vector ⟨0⟩] (.vector ⟨1⟩) (by decide +kernel))
  have rest₃ := rest₂.step (.bury [.context ⟨0⟩] (.vector ⟨0⟩) (by decide +kernel))
  have rest₅ := (rest₃.step (.work ⟨0⟩)).step (.work ⟨0⟩)
  exact ⟨_, h₆, h₇, _, _, run₆, stopped, by decide +kernel, by decide +kernel, by decide +kernel,
    by decide +kernel, by decide +kernel, rest₅, by decide +kernel, by decide +kernel,
    by decide +kernel, by decide +kernel⟩

end VectorHeap.Heap
