import VectorHeap.Proofs.Schedules

/-! What threads at a reclaimer can rely on, in whatever order their steps come. -/
namespace VectorHeap.Reclaimer

/-! ### The counters -/

namespace Event

@[simp] def counted? : Event → Option PeerId
  | counted p => some p
  | _ => none

@[simp] def stuck? : Event → Option PeerId
  | stuck p => some p
  | _ => none

@[simp] def finished? : Event → Option PeerId
  | finished p _ => some p
  | _ => none

@[simp] def released? : Event → Option PeerId
  | finished p true => some p
  | _ => none

/-- A call for the worker, whether it comes or cannot be started. -/
def IsBid : Event → Prop
  | queued _ | stuck _ | started => True
  | _ => False

variable {e : Event} {es : List Event} {p : PeerId}

theorem count_filterMap {f : Event → Option PeerId} {a : Event}
    (same : ∀ e, f e = some p ↔ e = a) : (es.filterMap f).count p = es.count a := by
  induction es with
  | nil => rfl
  | cons e es ih =>
    rw [List.filterMap_cons, List.count_cons, ← ih]
    cases he : f e with
    | none =>
      have other : e ≠ a := fun h => absurd (he.symm.trans ((same e).mpr h)) (by simp)
      simp [other]
    | some i =>
      have here : i = p ↔ e = a := by rw [← same, he, Option.some.injEq]
      simp [List.count_cons, here]

theorem counted_eq_some (e : Event) : e.counted? = some p ↔ e = .counted p := by
  cases e <;> simp

theorem released_eq_some (e : Event) : e.released? = some p ↔ e = .finished p true := by
  cases e with
  | finished i ran => cases ran <;> simp
  | _ => simp

theorem mem_counted : p ∈ es.filterMap counted? ↔ .counted p ∈ es := by
  simp only [List.mem_filterMap, counted_eq_some, exists_eq_right]

theorem mem_released : p ∈ es.filterMap released? ↔ .finished p true ∈ es := by
  simp only [List.mem_filterMap, released_eq_some, exists_eq_right]

theorem mem_finished : p ∈ es.filterMap finished? ↔ ∃ ran, .finished p ran ∈ es := by
  have same : ∀ e : Event, e.finished? = some p ↔ ∃ ran, e = .finished p ran := by
    intro e
    cases e <;> simp
  simp only [List.mem_filterMap, same]
  constructor
  · rintro ⟨e, mem, ran, rfl⟩
    exact ⟨ran, mem⟩
  · rintro ⟨ran, mem⟩
    exact ⟨_, mem, ran, rfl⟩

end Event

@[simp] def Activity.handIn? : Activity → Option PeerId
  | .handIn p _ => some p
  | .shutdown _ => none

variable {c : ContextId} {e : Event} {es : List Event} {r : Reclaimer} {p : PeerId} {h₀ : Heap}
  {s s' : Threads}

namespace Threads

/-- A call that was counted waits in the queue, is in the hands of a thread, ended in a panic or is
finished. -/
structure Tallied (r : Reclaimer) (es : List Event) (inHand : List Activity) : Prop where
  calls : (es.filterMap Event.counted?).Perm (r.queue ++ inHand.filterMap Activity.handIn? ++
    es.filterMap Event.stuck? ++ es.filterMap Event.finished?)
  pending : r.pending + (es.filterMap Event.finished?).length =
    (es.filterMap Event.counted?).length
  released : r.released = (es.filterMap Event.released?).length

theorem Tallied.pending_eq {inHand : List Activity} (T : Tallied r es inHand) :
    r.pending = r.queue.length + (inHand.filterMap Activity.handIn?).length +
      (es.filterMap Event.stuck?).length := by
  have calls := T.calls.length_eq
  have pending := T.pending
  simp only [List.length_append] at calls
  omega

theorem Tallied.step (T : Tallied r es s.inHand) (step : Step c s e s') (admits : r.Admits e) :
    Tallied (r.after e) (e :: es) s'.inHand := by
  have hands := step.inHand.filterMap Activity.handIn?
  have calls : ((e :: es).filterMap Event.counted?).Perm ((r.after e).queue ++
      s'.inHand.filterMap Activity.handIn? ++ (e :: es).filterMap Event.stuck? ++
      (e :: es).filterMap Event.finished?) := by
    have calls := T.calls
    rw [List.perm_iff_count] at hands calls ⊢
    intro p
    specialize hands p
    specialize calls p
    cases e with
    | dequeued i =>
      obtain ⟨rest, queue⟩ := List.head?_eq_some_iff.mp admits
      simp [queue, List.filterMap_cons, List.count_cons] at hands calls ⊢
      omega
    | _ =>
      simp [List.filterMap_cons, List.count_cons, count, finish, stop] at hands calls ⊢
      omega
  refine ⟨calls, ?_, ?_⟩
  · have pending := T.pending
    cases e with
    | finished i ran =>
      -- The peer was in hand, so something was pending.
      have held := hands.length_eq
      have before := T.pending_eq
      simp [finish, List.filterMap_cons] at held ⊢
      omega
    | counted =>
      simp [count, List.filterMap_cons]
      omega
    | _ => exact pending
  · have released := T.released
    cases e with
    | finished i ran => cases ran <;> simp [finish, List.filterMap_cons, released]
    | _ => exact released

/-! ### Releases -/

/-- Each mark of a peer is followed by a release that unwinds it, and that by the end of the hand-in,
unless a thread is still at it. -/
structure Traced (p : PeerId) (es : List Event) (inHand : List Activity) : Prop where
  unwound : es.count (.marked p) = es.count (.unwound p) + inHand.count (.handIn p .marked)
  finished : es.count (.unwound p) =
    es.count (.finished p true) + inHand.count (.handIn p .dropping)

theorem Traced.step (T : Traced p es s.inHand) (step : Step c s e s') :
    Traced p (e :: es) s'.inHand := by
  obtain ⟨unwound, finished⟩ := T
  have marked := step.inHand.count_eq (.handIn p .marked)
  have dropping := step.inHand.count_eq (.handIn p .dropping)
  simp only [List.count_append] at marked dropping
  cases e with
  | finished p' ran =>
    cases ran <;> constructor <;> simp [Stage.last, List.count_cons] at * <;> omega
  | _ => constructor <;> simp [List.count_cons] at * <;> omega

/-! ### Marks -/

def Apart (h₀ : Heap) (es : List Event) (p : PeerId) : Prop :=
  h₀.released? p = some true ∨ .apart p ∈ es

def Released (h₀ : Heap) (es : List Event) (p : PeerId) : Prop := .marked p ∈ es ∨ Apart h₀ es p

theorem released_cons : Released h₀ (e :: es) p ↔ e.marks? = some p ∨ Released h₀ es p := by
  cases e <;> simp [Released, Apart] <;> grind

structure Marked (h₀ h : Heap) (es : List Event) : Prop where
  mark : ∀ p released, h.released? p = some released → (released = true ↔ Released h₀ es p)
  issued : ∀ p, Released h₀ es p → p.index < h.peers.next
  once : ∀ p, es.count (.marked p) ≤ 1

theorem Marked.step (M : Marked h₀ s.heap es) (step : Step c s e s') :
    Marked h₀ s'.heap (e :: es) := by
  obtain ⟨before, after⟩ := step.marks
  refine ⟨fun p released now => ?_, fun p marked => ?_, fun p => ?_⟩
  · rw [released_cons]
    have old := after p released now
    split at old
    · rename_i marks
      exact iff_of_true old (.inl marks)
    · rename_i unmarked
      rw [or_iff_right unmarked]
      rcases old with old | ⟨new, rfl⟩
      · exact M.mark p released old
      · exact iff_of_false (by simp) (fun marked => Nat.not_lt.mpr new (M.issued p marked))
  · refine Nat.lt_of_lt_of_le ?_ step.next
    rcases released_cons.mp marked with marks | old
    · obtain ⟨q, hq, _⟩ := Option.map_eq_some_iff.mp (before p marks)
      exact Store.lt_next_of_find _ p q hq
    · exact M.issued p old
  · rw [List.count_cons]
    split
    · rename_i same
      obtain rfl := eq_of_beq same
      -- Whoever marks a peer finds it unmarked.
      have unmarked : .marked p ∉ es := by
        intro marked
        exact absurd ((M.mark p false (before p rfl)).mpr (.inl marked)) (by simp)
      exact Nat.le_of_eq (congrArg (· + 1) (List.count_eq_zero.mpr unmarked))
    · exact M.once p

/-! ### What becomes of a peer -/

/-- Whoever passed over a peer, or is finished with it, leaves it released. -/
structure Passed (h₀ : Heap) (es : List Event) (inHand : List Activity) : Prop where
  passed : ∀ p, .handIn p .passed ∈ inHand → Released h₀ es p
  finished : ∀ p, .finished p false ∈ es → Released h₀ es p

theorem Passed.step (P : Passed h₀ es s.inHand) (M : Marked h₀ s.heap es) (step : Step c s e s') :
    Passed h₀ (e :: es) s'.inHand := by
  constructor
  case passed =>
    intro p mem
    rw [released_cons]
    rcases step.of_mem_inHand mem with new | old
    · cases e <;> simp at new
      subst new
      exact .inr ((M.mark _ true step.passed).mp rfl)
    · exact .inr (P.passed p old)
  case finished =>
    intro p mem
    rw [released_cons]
    rcases List.mem_cons.mp mem with rfl | old
    · have held := step.inHand.mem_iff.mp List.mem_cons_self
      exact .inr (P.passed p (by simpa [Stage.last] using held))
    · exact .inr (P.finished p old)

/-! ### The worker -/

structure Staffed (s : Threads) (r : Reclaimer) (es : List Event) : Prop where
  running : r.running = true → s.worker = .alive ∧ r.shutDown = false
  unborn : s.worker = .unborn → s.work = [] ∧ r.queue = [] ∧ ∀ p, .queued p ∉ es
  gone : s.worker = .gone → s.work = [] ∧ r.queue = [] ∧ r.running = false
  born : s.worker ≠ .unborn → r.running = true ∨ ∃ ps, .stopped (some ps) ∈ es
  stopped : ∀ closed, .stopped closed ∈ es → r.shutDown = true

theorem Staffed.refuses (S : Staffed s r es) {closed : Option (List PeerId)}
    (stopped : .stopped closed ∈ es) :
    r.running = false ∧ r.shutDown = true ∧ ∀ e : Event, e.IsBid → ¬ r.Admits e := by
  have shut := S.stopped closed stopped
  have idle : r.running = false := by
    cases running : r.running with
    | false => rfl
    | true => exact absurd ((S.running running).2.symm.trans shut) (by simp)
  refine ⟨idle, shut, fun e bid => ?_⟩
  cases e with
  | queued | stuck | started => simp [Admits, shut, idle]
  | _ => exact bid.elim

theorem Staffed.startable (S : Staffed s r es) {i : PeerId} (queued : .queued p ∈ es) :
    ¬ r.Admits (.stuck i) := by
  rintro ⟨idle, unstopped⟩
  have born : s.worker ≠ .unborn := fun unborn => (S.unborn unborn).2.2 p queued
  rcases S.born born with running | ⟨ps, stopped⟩
  · exact absurd (idle.symm.trans running) (by simp)
  · exact absurd (unstopped.symm.trans (S.stopped _ stopped)) (by simp)

theorem Step.idle (step : Step c s e s') (idle : s.work = [])
    (absent : s.worker ≠ .alive ∨ e = .exited) : s'.work = [] := by
  rcases step.work with same | ⟨p, rfl, alive, _⟩ | ⟨_, busy, _⟩
  · rw [same, idle]
  · exact absurd alive (absent.resolve_right (by simp))
  · exact absurd idle busy

theorem Staffed.step (S : Staffed s r es) (step : Step c s e s') (admits : r.Admits e) :
    Staffed s' (r.after e) (e :: es) := by
  -- Only `queued`, `started` and `exited` say anything of the worker itself; at every other event
  -- the field is the one before.
  have worker := step.worker_eq
  constructor
  case running =>
    intro running
    cases e with
    | queued | started =>
      refine ⟨worker, ?_⟩
      rcases admits with before | unstopped
      · exact (S.running before).2
      · exact unstopped
    | stopped => exact absurd running (by simp [stop])
    | exited => exact absurd (admits.1.symm.trans running) (by simp)
    | _ => exact ⟨worker.trans (S.running running).1, (S.running running).2⟩
  case unborn =>
    intro unborn
    have before : s.worker = .unborn ∧ ∀ p, e ≠ .queued p := by
      rw [worker] at unborn
      cases e <;> simp_all
    obtain ⟨idle, empty, unqueued⟩ := S.unborn before.1
    refine ⟨step.idle idle (.inl (by simp [before.1])), ?_, fun p mem => ?_⟩
    · cases e <;> simp_all [count, finish, stop]
    · rcases List.mem_cons.mp mem with same | old
      · exact before.2 p same.symm
      · exact unqueued p old
  case gone =>
    intro gone
    cases e with
    | exited =>
      exact ⟨step.idle step.exited.2 (.inr rfl), admits.2, admits.1⟩
    | queued | started => exact absurd (worker.symm.trans gone) (by simp)
    | _ =>
      have before : s.worker = .gone := worker.symm.trans gone
      obtain ⟨idle, empty, closed⟩ := S.gone before
      exact ⟨step.idle idle (.inl (by simp [before])), by simp [empty, count, finish, stop],
        by simp [closed, count, finish, stop]⟩
  case born =>
    intro born
    rw [worker] at born
    cases e with
    | queued | started => exact .inl rfl
    | stopped closed =>
      rcases S.born born with running | ⟨ps, before⟩
      · obtain rfl : closed = some r.queue := by simpa [Admits, open?, running] using admits
        exact .inr ⟨r.queue, List.mem_cons_self⟩
      · exact .inr ⟨ps, List.mem_cons_of_mem _ before⟩
    | exited =>
      obtain ⟨ps, before⟩ := (S.born (by simp [step.exited.1])).resolve_left (by simp [admits.1])
      exact .inr ⟨ps, List.mem_cons_of_mem _ before⟩
    | _ =>
      rcases S.born born with running | ⟨ps, before⟩
      · exact .inl running
      · exact .inr ⟨ps, List.mem_cons_of_mem _ before⟩
  case stopped =>
    intro closed mem
    rcases List.mem_cons.mp mem with rfl | old
    · rfl
    · have stopped := S.stopped closed old
      cases e <;> simp_all [count, finish, stop]

/-! ### The queue -/

theorem mem_queue_after (mem : p ∈ r.queue) (admits : r.Admits e) :
    e = .dequeued p ∨ p ∈ (r.after e).queue := by
  cases e with
  | dequeued i =>
    obtain ⟨rest, queue⟩ := List.head?_eq_some_iff.mp admits
    rw [queue] at mem
    rcases List.mem_cons.mp mem with rfl | mem
    · exact .inl rfl
    · exact .inr (by simpa [queue] using mem)
  | queued i => exact .inr (List.mem_append_left _ mem)
  | _ => exact .inr mem

theorem leaves_handIn (mem : p ∈ e.leaves.filterMap Activity.handIn?) :
    e = .queued p ∨ e = .stuck p ∨ (∃ ran, e = .finished p ran) ∨
      p ∈ e.enters.filterMap Activity.handIn? := by
  cases e <;> simp at mem <;> simp [mem]

/-- What was queued the worker has before it or in hand until it is finished. -/
structure Served (s : Threads) (r : Reclaimer) (es : List Event) : Prop where
  queued : ∀ p, .queued p ∈ es → p ∈ r.queue ∨ p ∈ s.work.filterMap Activity.handIn? ∨
    ∃ ran, .finished p ran ∈ es
  line : ∀ p ∈ r.queue, .queued p ∈ es

theorem Served.step (V : Served s r es) (S : Staffed s r es) (step : Step c s e s')
    (admits : r.Admits e) : Served s' (r.after e) (e :: es) := by
  constructor
  case queued =>
    intro p mem
    rcases List.mem_cons.mp mem with rfl | old
    · exact .inl (List.mem_append_right _ List.mem_cons_self)
    rcases V.queued p old with waits | held | ⟨ran, finished⟩
    · rcases mem_queue_after waits admits with rfl | waits
      · exact .inr (.inl (by simp [step.dequeued]))
      · exact .inl waits
    · rcases step.work with same | ⟨_, _, _, idle⟩ | ⟨rest, _, before, after⟩
      · exact .inr (.inl (same ▸ held))
      · exact absurd held (by simp [idle])
      · rw [before, List.filterMap_append] at held
        rcases List.mem_append.mp held with left | held
        · rcases leaves_handIn left with rfl | rfl | ⟨ran, rfl⟩ | entered
          · exact .inl (List.mem_append_right _ List.mem_cons_self)
          · exact absurd admits (S.startable old)
          · exact .inr (.inr ⟨ran, List.mem_cons_self⟩)
          · rw [after, List.filterMap_append]
            exact .inr (.inl (List.mem_append_left _ entered))
        · rw [after, List.filterMap_append]
          exact .inr (.inl (List.mem_append_right _ held))
    · exact .inr (.inr ⟨ran, List.mem_cons_of_mem _ finished⟩)
  case line =>
    intro p mem
    cases e with
    | queued i =>
      rcases List.mem_append.mp mem with old | new
      · exact List.mem_cons_of_mem _ (V.line p old)
      · obtain rfl := List.mem_singleton.mp new
        exact List.mem_cons_self
    | dequeued i => exact List.mem_cons_of_mem _ (V.line p (List.mem_of_mem_tail mem))
    | _ => exact List.mem_cons_of_mem _ (V.line p mem)

/-! ### Shutdowns -/

/-- What the queue was when a shutdown closed it. -/
structure Closed (s : Threads) (es : List Event) : Prop where
  stopped : ∀ closed, .shutdown closed ∈ s.inHand → .stopped closed ∈ es
  line : ∀ ps, .stopped (some ps) ∈ es → ∀ p ∈ ps, .queued p ∈ es

theorem Closed.step (C : Closed s es) (V : Served s r es) (step : Step c s e s')
    (admits : r.Admits e) : Closed s' (e :: es) := by
  constructor
  case stopped =>
    intro closed mem
    rcases step.of_mem_inHand mem with new | old
    · cases e <;> simp at new
      simp [new]
    · exact List.mem_cons_of_mem _ (C.stopped closed old)
  case line =>
    intro ps mem p hp
    rcases List.mem_cons.mp mem with rfl | old
    · obtain ⟨_, rfl⟩ := open_eq_some (Eq.symm admits)
      exact List.mem_cons_of_mem _ (V.line p hp)
    · exact List.mem_cons_of_mem _ (C.line ps old p hp)

/-! ### Runs -/

structure Kept (h₀ : Heap) (es : List Event) (s : Threads) (r : Reclaimer) : Prop where
  tallied : Tallied r es s.inHand
  traced : ∀ p, Traced p es s.inHand
  marked : Marked h₀ s.heap es
  passed : Passed h₀ es s.inHand
  staffed : Staffed s r es
  served : Served s r es
  closed : Closed s es

theorem kept_of_opening (h₀ : Heap) (name : String) (n : Nat) :
    Kept h₀ [] (opening h₀ n) { name } := by
  have none : (opening h₀ n).inHand = [] := by simp [inHand, opening]
  constructor
  case tallied => rw [none]; exact ⟨.nil, rfl, rfl⟩
  case traced => intro p; rw [none]; exact ⟨rfl, rfl⟩
  case marked =>
    refine ⟨fun p released found => ?_, fun p released => ?_, fun p => Nat.zero_le 1⟩
    · change h₀.released? p = _ at found
      simp [Released, Apart, found]
    · have before : h₀.released? p = some true := by simpa [Released, Apart] using released
      obtain ⟨q, hq, _⟩ := Option.map_eq_some_iff.mp before
      exact Store.lt_next_of_find _ p q hq
  case passed => rw [none]; constructor <;> simp
  case staffed => constructor <;> simp [opening]
  case served => constructor <;> simp
  case closed => constructor <;> simp [none]

theorem Kept.step (K : Kept h₀ es s r) (step : Step c s e s') (admits : r.Admits e) :
    Kept h₀ (e :: es) s' (r.after e) where
  tallied := K.tallied.step step admits
  traced p := (K.traced p).step step
  marked := K.marked.step step
  passed := K.passed.step K.marked step
  staffed := K.staffed.step step admits
  served := K.served.step K.staffed step admits
  closed := K.closed.step K.served step admits

theorem run_kept {name : String} {n : Nat} (fresh : h₀.reclaimer? c = some { name })
    (run : Run c (opening h₀ n) es s) : ∃ r, s.heap.reclaimer? c = some r ∧ Kept h₀ es s r := by
  induction run with
  | start => exact ⟨_, fresh, kept_of_opening _ _ n⟩
  | step first last ih =>
    obtain ⟨r, found, K⟩ := ih
    obtain ⟨found', admits⟩ := last.reclaimer found
    exact ⟨_, found', K.step last admits⟩

/-! ### Consequences -/

/-- Whoever finishes with a peer leaves it released. -/
theorem Kept.released_of_finished (K : Kept h₀ es s r) {ran : Bool}
    (finished : .finished p ran ∈ es) : Released h₀ es p := by
  cases ran with
  | false => exact K.passed.finished p finished
  | true =>
    have T := K.traced p
    have mem := List.count_pos_iff.mpr finished
    exact .inl (List.count_pos_iff.mp (by rw [T.unwound, T.finished]; omega))

theorem Kept.once (K : Kept h₀ es s r) (p : PeerId) : es.count (.unwound p) ≤ 1 := by
  have marked := K.marked.once p
  rw [(K.traced p).unwound] at marked
  omega

theorem Kept.releases_nodup (K : Kept h₀ es s r) : (es.filterMap Event.released?).Nodup := by
  rw [List.nodup_iff_count]
  intro p
  have once := K.once p
  rw [(K.traced p).finished] at once
  rw [Event.count_filterMap Event.released_eq_some]
  omega

theorem Kept.unwound (K : Kept h₀ es s r) (released : Released h₀ es p)
    (idle : .handIn p .marked ∉ s.inHand) : .unwound p ∈ es ∨ Apart h₀ es p := by
  rcases released with marked | apart
  · have count := (K.traced p).unwound
    rw [List.count_eq_zero.mpr idle] at count
    have mem := List.count_pos_iff.mpr marked
    exact .inl (List.count_pos_iff.mp (by omega))
  · exact .inr apart

theorem Kept.drained (K : Kept h₀ es s r) (none : r.pending = 0) :
    r.queue = [] ∧ (∀ p stage, .handIn p stage ∉ s.inHand) ∧
      ∀ p, .counted p ∈ es → .unwound p ∈ es ∨ Apart h₀ es p := by
  have pending := K.tallied.pending_eq
  have empty : r.queue = [] := List.eq_nil_of_length_eq_zero (by omega)
  have idle : s.inHand.filterMap Activity.handIn? = [] := List.eq_nil_of_length_eq_zero (by omega)
  have unstuck : es.filterMap Event.stuck? = [] := List.eq_nil_of_length_eq_zero (by omega)
  have free : ∀ p stage, .handIn p stage ∉ s.inHand := by
    intro p stage held
    have mem : p ∈ s.inHand.filterMap Activity.handIn? := List.mem_filterMap.mpr ⟨_, held, rfl⟩
    rw [idle] at mem
    exact absurd mem List.not_mem_nil
  refine ⟨empty, free, fun p counted => ?_⟩
  have calls := K.tallied.calls.mem_iff.mp (Event.mem_counted.mpr counted)
  rw [empty, idle, unstuck] at calls
  obtain ⟨ran, finished⟩ := Event.mem_finished.mp calls
  exact K.unwound (K.released_of_finished finished) (free p .marked)

/-- What holds when a shutdown returns to a caller. Everything that was ever queued is released, and
unwound unless another caller marked it and is still at it; but a shutdown that finds the queue closed by
another one does not wait for the worker. -/
structure Joined (h₀ : Heap) (es : List Event) (s : Threads) (closed : Option (List PeerId)) : Prop where
  line : ∀ ps, closed = some ps → ∀ p ∈ ps, .queued p ∈ es
  released : (closed = none ∧ s.worker = .alive ∧ ∃ ps, .stopped (some ps) ∈ es) ∨
    ∀ p, .queued p ∈ es → Released h₀ es p ∧
      (.unwound p ∈ es ∨ Apart h₀ es p ∨ ∃ stack ∈ s.callers, .handIn p .marked ∈ stack)

/-- Once the worker is gone everything that it was sent is released. -/
theorem Kept.released_of_gone (K : Kept h₀ es s r) (gone : s.worker = .gone) (queued : .queued p ∈ es) :
    Released h₀ es p ∧
      (.unwound p ∈ es ∨ Apart h₀ es p ∨ ∃ stack ∈ s.callers, .handIn p .marked ∈ stack) := by
  obtain ⟨idle, empty, _⟩ := K.staffed.gone gone
  obtain ⟨ran, finished⟩ : ∃ ran, .finished p ran ∈ es := by
    simpa [idle, empty] using K.served.queued p queued
  have released := K.released_of_finished finished
  refine ⟨released, ?_⟩
  by_cases held : .handIn p .marked ∈ s.inHand
  · rw [inHand, idle, List.nil_append] at held
    obtain ⟨stack, mem, held⟩ := List.mem_flatten.mp held
    exact .inr (.inr ⟨stack, mem, held⟩)
  · exact (K.unwound released held).imp_right .inl

theorem Kept.joined (K : Kept h₀ es s r) {closed : Option (List PeerId)}
    (step : Step c s (.returned true closed) s') : Joined h₀ es s closed := by
  have stopped : .stopped closed ∈ es :=
    K.closed.stopped closed (step.inHand.mem_iff.mp List.mem_cons_self)
  refine ⟨fun ps same => K.closed.line ps (same ▸ stopped), ?_⟩
  cases worker : s.worker with
  | unborn => exact .inr (fun p queued => absurd queued ((K.staffed.unborn worker).2.2 p))
  | gone => exact .inr (fun p queued => K.released_of_gone worker queued)
  | alive =>
    cases closed with
    | some ps => exact absurd (worker.symm.trans step.returned) (by simp)
    | none =>
      have idle := (K.staffed.refuses stopped).1
      exact .inl ⟨rfl, rfl, (K.staffed.born (by simp [worker])).resolve_left (by simp [idle])⟩

theorem run_stopped {name : String} {n : Nat} (fresh : h₀.reclaimer? c = some { name })
    (run : Run c (opening h₀ n) es s) : ∀ later earlier closed,
      es = later ++ .stopped closed :: earlier → ∀ e ∈ later, ¬ e.IsBid := by
  induction run with
  | start => intro later earlier closed cut; simp at cut
  | step first last ih =>
    intro later earlier closed cut
    cases later with
    | nil => simp
    | cons e later =>
      obtain ⟨rfl, rfl⟩ := List.cons.inj cut
      obtain ⟨r, found, K⟩ := run_kept fresh first
      have stopped : .stopped closed ∈ later ++ .stopped closed :: earlier := by simp
      have refuses := (K.staffed.refuses stopped).2.2
      intro e' mem bid
      rcases List.mem_cons.mp mem with rfl | mem
      · exact refuses _ bid (last.reclaimer found).2
      · exact ih later earlier closed rfl e' mem bid

theorem run_joined {name : String} {n : Nat} (fresh : h₀.reclaimer? c = some { name })
    (run : Run c (opening h₀ n) es s) : ∀ later earlier closed,
      es = later ++ .returned true closed :: earlier →
        ∃ s₁, Run c (opening h₀ n) earlier s₁ ∧ Joined h₀ earlier s₁ closed := by
  induction run with
  | start => intro later earlier closed cut; simp at cut
  | step first last ih =>
    intro later earlier closed cut
    cases later with
    | nil =>
      obtain ⟨rfl, rfl⟩ := List.cons.inj cut
      obtain ⟨r, _, K⟩ := run_kept fresh first
      exact ⟨_, first, K.joined last⟩
    | cons e later => exact ih later earlier closed (List.cons.inj cut).2

/-- What anyone can rely on after a run, whatever the threads did and in whatever order. -/
structure Orderly (c : ContextId) (h₀ : Heap) (n : Nat) (es : List Event) (s : Threads) (r : Reclaimer) :
    Prop where
  /-- The calls that were counted are those that are pending and those that are finished. -/
  pending : (es.filterMap Event.counted?).length =
    r.pending + (es.filterMap Event.finished?).length
  /-- Calls that ended in a panic are pending for good. -/
  panicked : (es.filterMap Event.stuck?).length ≤ r.pending
  /-- A peer is marked in the heap if it was released, and unwound at most once. -/
  marked : ∀ p released, s.heap.released? p = some released →
    (released = true ↔ Released h₀ es p)
  once : ∀ p, es.count (.unwound p) ≤ 1
  /-- Nothing is left to do when nothing is pending, and nothing is yet to come of it. -/
  drained : r.pending = 0 → r.queue = [] ∧ (∀ p stage, .handIn p stage ∉ s.inHand) ∧
    ∀ p, .counted p ∈ es → .unwound p ∈ es ∨ Apart h₀ es p
  /-- The peers whose release is finished are counted, each once. -/
  released : (es.filterMap Event.released?).Nodup ∧
    r.released = (es.filterMap Event.released?).length
  /-- They are all that were handed in when nothing is pending. -/
  releasedAll : r.pending = 0 → (∀ p, .counted p ∈ es → ¬ Apart h₀ es p) →
    ∀ p, p ∈ es.filterMap Event.released? ↔ .counted p ∈ es
  /-- After a shutdown nothing calls for the worker, and who hands in a peer is to release it. -/
  stopped : ∀ later earlier closed, es = later ++ .stopped closed :: earlier →
    r.running = false ∧ (∀ e ∈ later, ¬ e.IsBid) ∧
    ∀ outside p rest e v, Move c outside ⟨s.heap, s.worker, .handIn p .counted :: rest⟩ e v →
      e = .refused p ∧ v = ⟨s.heap, s.worker, .handIn p .taken :: rest⟩
  joined : ∀ later earlier closed, es = later ++ .returned true closed :: earlier →
    ∃ s₁, Run c (opening h₀ n) earlier s₁ ∧ Joined h₀ earlier s₁ closed

theorem orderly_after_run {name : String} {n : Nat} (fresh : h₀.reclaimer? c = some { name })
    (run : Run c (opening h₀ n) es s) :
    ∃ r, s.heap.reclaimer? c = some r ∧ Orderly c h₀ n es s r := by
  obtain ⟨r, found, K⟩ := run_kept fresh run
  refine ⟨r, found, ?_⟩
  constructor
  case pending => exact K.tallied.pending.symm
  case panicked => have pending := K.tallied.pending_eq; omega
  case marked => exact K.marked.mark
  case once => exact K.once
  case drained => exact K.drained
  case released => exact ⟨K.releases_nodup, K.tallied.released⟩
  case releasedAll =>
    intro none only p
    obtain ⟨_, free, unwound⟩ := K.drained none
    rw [Event.mem_released]
    constructor
    · intro finished
      refine Event.mem_counted.mp (K.tallied.calls.mem_iff.mpr (List.mem_append_right _ ?_))
      exact Event.mem_finished.mpr ⟨true, finished⟩
    · intro counted
      have count := (K.traced p).finished
      rw [List.count_eq_zero.mpr (free p .dropping)] at count
      have mem := List.count_pos_iff.mpr ((unwound p counted).resolve_right (only p counted))
      exact List.count_pos_iff.mp (by omega)
  case stopped =>
    intro later earlier closed cut
    have stopped : .stopped closed ∈ es := by simp [cut]
    obtain ⟨idle, shut, _⟩ := K.staffed.refuses stopped
    refine ⟨idle, run_stopped fresh run later earlier closed cut, fun outside p rest e v move => ?_⟩
    exact move.refused rfl found shut idle
  case joined => exact run_joined fresh run

/-- One of some callers begins to hand in a peer. -/
theorem exists_counted (name : String) (others : Nat) : ∃ h k, h.reclaimer? ⟨0⟩ = some { name } ∧
    Run ⟨0⟩ (opening h (others + 1)) [.counted ⟨0⟩]
      ⟨k, .unborn, [], [.handIn ⟨0⟩ .counted] :: List.replicate others []⟩ ∧
    k.released? ⟨0⟩ = some false ∧ k.reclaimer? ⟨0⟩ = some { name, pending := 1 } := by
  let h₁ : Heap := (Call.newContext { workerName := name }).op.after {}
  let h₂ : Heap := (Call.newVector ⟨0⟩ .int [.int 1]).op.after h₁
  let h : Heap := (Call.promote ⟨0⟩).op.after h₂
  have fresh : h.reclaimer? ⟨0⟩ = some { name } := rfl
  have live : h.released? ⟨0⟩ = some false := rfl
  exact ⟨h, _, fresh, Run.start.step (seated_caller ⟨0⟩ [] [] (List.replicate others [])
    ⟨h, .unborn, []⟩ _ _ (.count rfl live)), live, by simp [fresh, count]⟩

/-- One of some callers hands in a peer, which starts the worker, and closes the queue. -/
theorem exists_closed (others : Nat) : ∃ h k, h.reclaimer? ⟨0⟩ = some { name := "w" } ∧
    Run ⟨0⟩ (opening h (others + 1)) [.stopped (some [⟨0⟩]), .queued ⟨0⟩, .counted ⟨0⟩]
      ⟨k, .alive, [], [.shutdown (some [⟨0⟩])] :: List.replicate others []⟩ ∧
    k.released? ⟨0⟩ = some false ∧
    k.reclaimer? ⟨0⟩ = some { name := "w", pending := 1, queue := [⟨0⟩], shutDown := true } := by
  obtain ⟨h, k₁, fresh, counted, live₁, r₁⟩ := exists_counted "w" others
  let rest : List (List Activity) := List.replicate others []
  obtain ⟨k₂, t₂, live₂, r₂⟩ : ∃ k, Step ⟨0⟩ ⟨k₁, .unborn, [], [.handIn ⟨0⟩ .counted] :: rest⟩
      (.queued ⟨0⟩) ⟨k, .alive, [], [] :: rest⟩ ∧ k.released? ⟨0⟩ = some false ∧
      k.reclaimer? ⟨0⟩ = some { name := "w", pending := 1, running := true, queue := [⟨0⟩] } :=
    ⟨_, seated_caller ⟨0⟩ [] [] rest ⟨k₁, .unborn, [_]⟩ _ _ (.queue r₁ rfl), live₁, by simp [r₁]⟩
  obtain ⟨k₃, t₃, live₃, r₃⟩ : ∃ k, Step ⟨0⟩ ⟨k₂, .alive, [], [] :: rest⟩
      (.stopped (some [⟨0⟩])) ⟨k, .alive, [], [.shutdown (some [⟨0⟩])] :: rest⟩ ∧
      k.released? ⟨0⟩ = some false ∧
      k.reclaimer? ⟨0⟩ = some { name := "w", pending := 1, queue := [⟨0⟩], shutDown := true } :=
    ⟨_, seated_caller ⟨0⟩ [] [] rest ⟨k₂, .alive, []⟩ _ _ (.close rfl r₂), live₂,
      by simp [Heap.shutdown, r₂, stop]⟩
  exact ⟨h, k₃, fresh, (counted.step t₂).step t₃, live₃, r₃⟩

/-- A peer that a caller hands in before it shuts the reclaimer down. -/
theorem orderly_after_shutdown : ∃ h es s r, h.reclaimer? ⟨0⟩ = some { name := "w" } ∧
    Run ⟨0⟩ (opening h 1) (.returned true (some [⟨0⟩]) :: es) s ∧
    s.heap.reclaimer? ⟨0⟩ = some r ∧ r.pending = 0 ∧ r.queue = [] ∧ r.released = 1 ∧
    r.running = false ∧
    ∃ s₁, Run ⟨0⟩ (opening h 1) es s₁ ∧ Joined h es s₁ (some [⟨0⟩]) := by
  obtain ⟨h, k₀, fresh, closed, live₀, r₀⟩ := exists_closed 0
  let waiting : List (List Activity) := [[.shutdown (some [⟨0⟩])]]
  -- The worker releases what is queued and exits, and the caller returns.
  obtain ⟨k₁, t₁, live₁, r₁⟩ : ∃ k, Step ⟨0⟩ ⟨k₀, .alive, [], waiting⟩ (.dequeued ⟨0⟩)
      ⟨k, .alive, [.handIn ⟨0⟩ .taken], waiting⟩ ∧ k.released? ⟨0⟩ = some false ∧
      k.reclaimer? ⟨0⟩ = some { name := "w", pending := 1, shutDown := true } :=
    ⟨_, .dequeue rfl rfl r₀ rfl, live₀, by simp [r₀]⟩
  have t₂ : Step ⟨0⟩ ⟨k₁, .alive, [.handIn ⟨0⟩ .taken], waiting⟩ (.marked ⟨0⟩)
      ⟨k₁.mark ⟨0⟩, .alive, [.handIn ⟨0⟩ .marked], waiting⟩ :=
    seated_worker ⟨0⟩ waiting ⟨k₁, .alive, [_]⟩ _ _ (.mark live₁)
  obtain ⟨k₃, t₃, r₃⟩ : ∃ k, Step ⟨0⟩ ⟨k₁.mark ⟨0⟩, .alive, [.handIn ⟨0⟩ .marked], waiting⟩
      (.unwound ⟨0⟩) ⟨k, .alive, [.handIn ⟨0⟩ .dropping], waiting⟩ ∧
      k.reclaimer? ⟨0⟩ = some { name := "w", pending := 1, shutDown := true } :=
    ⟨_, seated_worker ⟨0⟩ waiting ⟨k₁.mark ⟨0⟩, .alive, [_]⟩ _ _ .unwind, by simp [r₁]⟩
  obtain ⟨k₄, t₄, r₄⟩ : ∃ k, Step ⟨0⟩ ⟨k₃, .alive, [.handIn ⟨0⟩ .dropping], waiting⟩
      (.finished ⟨0⟩ true) ⟨k, .alive, [], waiting⟩ ∧
      k.reclaimer? ⟨0⟩ = some { name := "w", released := 1, shutDown := true } :=
    ⟨_, seated_worker ⟨0⟩ waiting ⟨k₃, .alive, [_]⟩ _ _ (.finish true), by simp [r₃, finish]⟩
  have t₅ : Step ⟨0⟩ ⟨k₄, .alive, [], waiting⟩ .exited ⟨k₄, .gone, [], waiting⟩ :=
    .exit rfl rfl r₄ rfl rfl
  have t₆ : Step ⟨0⟩ ⟨k₄, .gone, [], waiting⟩ (.returned true (some [⟨0⟩]))
      ⟨k₄, .gone, [], [[]]⟩ :=
    seated_caller ⟨0⟩ [] [] [] ⟨k₄, .gone, [_]⟩ _ _ (.leave (fun _ _ => rfl))
  have drained := (((closed.step t₁).step t₂).step t₃).step t₄
  have run := (drained.step t₅).step t₆
  obtain ⟨r, found, O⟩ := orderly_after_run fresh run
  have balance : 1 = r.pending + 1 := O.pending
  have pending : r.pending = 0 := by omega
  have stopped := O.stopped [_, _, _, _, _, _] _ (some [⟨0⟩]) rfl
  exact ⟨h, _, _, r, fresh, run, found, pending, (O.drained pending).1, O.released.2, stopped.1,
    O.joined [] _ _ rfl⟩

/-- Two callers shut the reclaimer down. The second one finds the queue closed and returns, with the peer
that was handed in before still in the queue and not released. And where the worker cannot be started for
its name, a peer that is handed in is neither queued nor released, and it is pending for good. -/
theorem unreleased_after_calls :
    (∃ h s r, h.reclaimer? ⟨0⟩ = some { name := "w" } ∧
      Run ⟨0⟩ (opening h 2) [.returned true none, .stopped none, .stopped (some [⟨0⟩]), .queued ⟨0⟩,
        .counted ⟨0⟩] s ∧
      s.heap.reclaimer? ⟨0⟩ = some r ∧ r.queue = [⟨0⟩] ∧ s.heap.released? ⟨0⟩ = some false) ∧
    ∃ h s r, h.reclaimer? ⟨0⟩ = some { name := "\x00" } ∧
      Run ⟨0⟩ (opening h 1) [.stuck ⟨0⟩, .counted ⟨0⟩] s ∧ s.inHand = [] ∧
      s.heap.reclaimer? ⟨0⟩ = some r ∧ r.queue = [] ∧ r.pending = 1 ∧
      s.heap.released? ⟨0⟩ = some false := by
  constructor
  · obtain ⟨h, k₀, fresh, closed, live₀, r₀⟩ := exists_closed 1
    let waiting : List Activity := [.shutdown (some [⟨0⟩])]
    obtain ⟨k₁, t₁, live₁, r₁⟩ : ∃ k, Step ⟨0⟩ ⟨k₀, .alive, [], [waiting, []]⟩ (.stopped none)
        ⟨k, .alive, [], [waiting, [.shutdown none]]⟩ ∧ k.released? ⟨0⟩ = some false ∧
        k.reclaimer? ⟨0⟩ = some { name := "w", pending := 1, queue := [⟨0⟩], shutDown := true } :=
      ⟨_, seated_caller ⟨0⟩ [] [waiting] [] ⟨k₀, .alive, []⟩ _ _ (.close rfl r₀), live₀,
        by simp [Heap.shutdown, r₀, stop]⟩
    have t₂ : Step ⟨0⟩ ⟨k₁, .alive, [], [waiting, [.shutdown none]]⟩ (.returned true none)
        ⟨k₁, .alive, [], [waiting, []]⟩ :=
      seated_caller ⟨0⟩ [] [waiting] [] ⟨k₁, .alive, [_]⟩ _ _
        (.leave (fun _ some => absurd some (by simp)))
    exact ⟨h, _, _, fresh, (closed.step t₁).step t₂, r₁, rfl, live₁⟩
  · obtain ⟨h, k, fresh, counted, live, r⟩ := exists_counted "\x00" 0
    have failed : ({ name := "\x00", pending := 1 } : Reclaimer).dispatch? ⟨0⟩ =
        .error (.unusableName 0 [0]) := rfl
    have stuck : Step ⟨0⟩ ⟨k, .unborn, [], [[.handIn ⟨0⟩ .counted]]⟩ (.stuck ⟨0⟩)
        ⟨{ k with panics := k.panics ++ [.unusableName 0 [0]] }, .unborn, [], [[]]⟩ :=
      seated_caller ⟨0⟩ [] [] [] ⟨k, .unborn, [_]⟩ _ _ (.panic r failed)
    exact ⟨h, _, _, fresh, counted.step stuck, rfl, r, rfl, rfl, live⟩

end Threads
end VectorHeap.Reclaimer
