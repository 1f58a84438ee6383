import VectorHeap.CommandLine.Run
import VectorHeap.Proofs.Churn
import VectorHeap.Proofs.Tracking

/-! Churn beside its worker. The loop makes a vector, promotes it and drops it, over and over; burials and
the worker come in between as they like. No interleaving stops the loop, and all of them that settle end
with the same snapshot. At a given pace the snapshot shows what the worker did not get to. -/
namespace VectorHeap
namespace CommandLine

open Heap

/-! ### Courses -/

/-- Where the loop stands: between two turns, or with a vector in its hands. -/
inductive Stage
  | between
  | made (v : VectorId)
  | promoted (v : VectorId)

def Stage.roots (c : ContextId) : Stage → List Ref
  | .between => [.context c]
  | .made v | .promoted v => [.context c, .vector v]

/-- How many vectors were promoted so far, and where that left the loop and the heap. -/
structure Course where
  turns : Nat
  stage : Stage
  heap : Heap

namespace Course

inductive LoopStep (c : ContextId) (length : Nat) : Course → Course → Prop
  | make {n : Nat} {h h' : Heap} {v : VectorId}
      (run : Op.newVector c (.ofValues .double (List.replicate length (Double.ofNat n))) h = .ok v h') :
      LoopStep c length ⟨n, .between, h⟩ ⟨n, .made v, h'⟩
  | promote {n : Nat} {h h' : Heap} {v : VectorId} {k : Handle} (run : Op.promote v h = .ok k h') :
      LoopStep c length ⟨n, .made v, h⟩ ⟨n + 1, .promoted v, h'⟩
  | drop {n : Nat} {h : Heap} {v : VectorId} : LoopStep c length ⟨n, .promoted v, h⟩ ⟨n, .between, h⟩

/-- A step of the loop, the burial of what neither the loop nor the heap refers to, or a turn of the
worker. -/
inductive Step (c : ContextId) (length : Nat) : Course → Course → Prop
  | loop {s s' : Course} (step : LoopStep c length s s') : Step c length s s'
  | bury {s : Course} {r : Ref} (dead : r ∈ s.heap.dead (s.stage.roots c)) :
      Step c length s { s with heap := s.heap.bury r }
  | work {s : Course} : Step c length s { s with heap := s.heap.work c }

abbrev Run (c : ContextId) (length : Nat) : Course → Course → Prop := Relation.ReflTransGen (Step c length)

variable {supply : Nat → Nat → Option Address} {c : ContextId} {config : Config}
  {count length n done : Nat} {s s' : Course} {h : Heap}

theorem Step.turns_le (step : Step c length s s') : s.turns ≤ s'.turns := by
  cases step with
  | loop step =>
    cases step with
    | promote => exact Nat.le_succ _
    | _ => exact Nat.le_refl _
  | _ => exact Nat.le_refl _

/-- The heap is the heap of a churn, and a vector that was made awaits its promotion. -/
structure Sound (supply : Nat → Nat → Option Address) (c : ContextId) (config : Config) (length : Nat)
    (s : Course) : Prop where
  churning : ∃ done, s.heap.Churning supply c config length s.turns done
  awaits : ∀ v, s.stage = .made v → ∃ cell b, s.heap.vectors.find? v = some cell ∧ cell.buffer = some b ∧
    cell.peer = none ∧ cell.capacity = length

/-- So many turns are within the handles that there are, and the allocator never refuses what a vector
takes. -/
structure Feasible (supply : Nat → Nat → Option Address) (config : Config) (count length : Nat) : Prop where
  name : 0 ∉ Utf8.encode config.workerName
  few : count ≤ 2 ^ 64 / Nat.gcd (2 ^ 64) config.handles.step
  granted : 0 < count → ∀ n, ¬ Block.Refused (fun bytes => (supply n bytes).isSome) (Op.blockSize (8 * length))

theorem Feasible.small (F : Feasible supply config count length) (more : 0 < count) :
    ¬ Buffer.maxBytes < length * ElemType.double.managedWidth := by
  have limits : Block.maxSize ≤ Buffer.maxBytes := by decide
  have fits : ¬ Block.maxSize < 8 * length := by
    intro large
    have positive : 8 * length ≠ 0 := Nat.ne_of_gt (Nat.lt_of_le_of_lt (Nat.zero_le _) large)
    exact F.granted more 0 (.inr (.inl (by rwa [Op.blockSize_of_pos positive])))
  change ¬ Buffer.maxBytes < length * 8
  omega

namespace Sound

theorem start (supply : Nat → Nat → Option Address) (config : Config) (length : Nat) :
    Sound supply (Store.empty : Store .context Context).fresh config length
      ⟨0, .between, { supply, contexts := Store.empty.add (.ofConfig config) }⟩ where
  churning := ⟨0, .start supply config length⟩
  awaits _ made := by cases made

end Sound

theorem make (C : h.Churning supply c config length n done) (i : Nat) : ∃ v h' cell b,
    Op.newVector c (.ofValues .double (List.replicate length (Double.ofNat i))) h = .ok v h' ∧
      h'.Churning supply c config length n done ∧ h'.vectors.find? v = some cell ∧ cell.buffer = some b ∧
      cell.peer = none ∧ cell.capacity = length := by
  obtain ⟨run, C'⟩ := C.newVector (List.replicate length (Double.ofNat i))
  exact ⟨_, _, _, _, run, C', h.vectors.find_add_fresh _, rfl, rfl,
    (List.length_map _).trans List.length_replicate⟩

theorem promote (F : Feasible supply config count length) (C : h.Churning supply c config length n done)
    (more : n < count) {v : VectorId} {cell : VectorCell} {b : Buffer}
    (found : h.vectors.find? v = some cell) (managed : cell.buffer = some b) (bare : cell.peer = none)
    (capacity : cell.capacity = length) :
    ∃ k h', Op.promote v h = .ok k h' ∧ h'.Churning supply c config length (n + 1) done := by
  refine C.promote (Nat.lt_of_lt_of_le more F.few) found managed bare capacity (fun refused => ?_)
  have never := F.granted (by omega) h.allocations
  rw [← C.asked] at never
  exact never refused

namespace Sound

theorem goesOn (F : Feasible supply config count length) (S : Sound supply c config length s)
    (more : s.turns < count) : ∃ s', LoopStep c length s s' := by
  obtain ⟨n, stage, h⟩ := s
  obtain ⟨done, C⟩ := S.churning
  cases stage with
  | between =>
    obtain ⟨_, _, _, _, run, _⟩ := make C n
    exact ⟨_, .make run⟩
  | made v =>
    obtain ⟨cell, b, found, managed, bare, capacity⟩ := S.awaits v rfl
    obtain ⟨_, _, run, _⟩ := promote F C more found managed bare capacity
    exact ⟨_, .promote run⟩
  | promoted v => exact ⟨_, .drop⟩

theorem shed {h' : Heap} (S : Sound supply c config length s) (D : s.heap.Sheds h')
    (C : h'.Churning supply c config length s.turns done)
    (kept : ∀ v, s.stage = .made v → h'.has (.vector v) = s.heap.has (.vector v)) :
    Sound supply c config length { s with heap := h' } := by
  refine ⟨⟨_, C⟩, fun v made => ?_⟩
  obtain ⟨cell, b, found, rest⟩ := S.awaits v made
  obtain ⟨cell', found'⟩ := has_vector_iff.mp ((kept v made).trans (has_vector_iff.mpr ⟨cell, found⟩))
  cases found.symm.trans (D.vectors v cell' found')
  exact ⟨cell, b, found', rest⟩

theorem step (F : Feasible supply config count length) (S : Sound supply c config length s)
    (step : Step c length s s') (within : s'.turns ≤ count) : Sound supply c config length s' := by
  obtain ⟨done, C⟩ := S.churning
  cases step with
  | loop step =>
    cases step with
    | @make n h h' v run =>
      obtain ⟨_, _, cell, b, run', C', rest⟩ := make C n
      cases run.symm.trans run'
      exact ⟨⟨done, C'⟩, fun w made => by cases made; exact ⟨cell, b, rest⟩⟩
    | @promote n h h' v k run =>
      obtain ⟨cell, b, found, managed, bare, capacity⟩ := S.awaits v rfl
      obtain ⟨_, _, run', C'⟩ := promote F C within found managed bare capacity
      cases run.symm.trans run'
      exact ⟨⟨done, C'⟩, fun _ made => by cases made⟩
    | drop => exact ⟨⟨done, C⟩, fun _ made => by cases made⟩
  | @bury r dead =>
    have root : .context c ∈ s.stage.roots c := by cases s.stage <;> exact List.mem_cons_self
    obtain ⟨_, rootless, unheld, _⟩ := mem_dead_iff.mp dead
    refine S.shed (bury_sheds C.intact unheld) (C.bury F.name root dead) (fun v made => ?_)
    -- The loop still refers to the vector, so it is something else that is buried.
    have kept : .vector v ∈ s.stage.roots c := made ▸ List.mem_cons_of_mem _ List.mem_cons_self
    rw [has, bury_vectors]
    exact has_without (fun same : r = .vector v => rootless (same.symm ▸ kept))
  | work =>
    have shed := work_sheds C.intact c
    have kept : ∀ v, s.stage = .made v → (s.heap.work c).has (.vector v) = s.heap.has (.vector v) :=
      fun v _ => by rw [has, work_vectors, has]
    cases waiting : s.heap.queueOf c with
    | nil => exact S.shed shed (C.work_idle waiting) kept
    | cons p rest => exact S.shed shed (C.work waiting) kept

theorem run (F : Feasible supply config count length) (S : Sound supply c config length s)
    (run : Run c length s s') (within : s'.turns ≤ count) : Sound supply c config length s' := by
  induction run with
  | refl => exact S
  | tail _ last ih => exact (ih (Nat.le_trans last.turns_le within)).step F last within

end Sound

theorem endures {start : Course} (S : Sound supply c config length start)
    (F : Feasible supply config count length) (within : n ≤ count) :
    Endures [.context c] (fun h => Run c length start ⟨n, .between, h⟩) where
  intact _ run := (S.run F run within).churning.elim (fun _ C => C.intact)
  bury _ _ run dead := run.tail (.bury dead)
  work h d run := by
    obtain ⟨done, C⟩ := (S.run F run within).churning
    by_cases there : d = c
    · exact there ▸ run.tail .work
    · rcases work_cases h d with idle | ⟨ctx, _, _, found, _⟩
      · exact idle.symm ▸ run
      · exact absurd (C.alone d ctx found) there

end Course

/-! ### The churn at a pace -/

section Pace

variable {supply : Nat → Nat → Option Address} {c : ContextId} {config : Config}
  {count length n done : Nat} {h : Heap}

theorem workTurn_run (name : 0 ∉ Utf8.encode config.workerName)
    (C : h.Churning supply c config length n done) (buried : h.dead [.context c] = []) :
    (workTurns c 1 h).Churning supply c config length n (min n (done + 1)) ∧
      (workTurns c 1 h).dead [.context c] = [] := by
  obtain ⟨within, idle⟩ := C.queue_eq_nil_iff buried
  cases waiting : h.queueOf c with
  | nil =>
    have same : min n (done + 1) = done := by
      have all := idle.mp waiting
      omega
    rw [same]
    exact (C.work_idle waiting).collect name
  | cons p rest =>
    have next : min n (done + 1) = done + 1 := by
      have some : done ≠ n := fun all => absurd (waiting.symm.trans (idle.mpr all)) (by simp)
      omega
    rw [next]
    exact (C.work waiting).collect name

theorem workTurns_run (name : 0 ∉ Utf8.encode config.workerName) (m : Nat)
    (C : h.Churning supply c config length n done) (buried : h.dead [.context c] = []) :
    (workTurns c m h).Churning supply c config length n (min n (done + m)) ∧
      (workTurns c m h).dead [.context c] = [] := by
  induction m generalizing h done with
  | zero =>
    obtain ⟨within, _⟩ := C.queue_eq_nil_iff buried
    exact ⟨(Nat.min_eq_right within).symm ▸ C, buried⟩
  | succ m ih =>
    obtain ⟨C', buried'⟩ := workTurn_run name C buried
    have sum : min n (min n (done + 1) + m) = min n (done + (m + 1)) := by omega
    exact sum ▸ ih C' buried'

/-- How many peers are released after so many turns, of which each gives the worker as many turns as its
pace says. -/
def caughtUp (pace : Nat → Nat) : Nat → Nat
  | 0 => 0
  | n + 1 => min (n + 1) (caughtUp pace n + pace n)

/-- A worker that gets a turn after each turn keeps up. -/
theorem caughtUp_steady {pace : Nat → Nat} (steady : ∀ i, 1 ≤ pace i) (n : Nat) : caughtUp pace n = n := by
  induction n with
  | zero => rfl
  | succ n ih =>
    have turn := steady n
    rw [caughtUp, ih]
    omega

theorem churnFrom_run (F : Course.Feasible supply config count length) (pace : Nat → Nat) (m : Nat)
    (C : h.Churning supply c config length n (caughtUp pace n)) (buried : h.dead [.context c] = [])
    (within : n + m ≤ count) : ∃ h', churnFrom c length pace n m h = .ok ⟨⟩ h' ∧
      h'.Churning supply c config length (n + m) (caughtUp pace (n + m)) ∧ h'.dead [.context c] = [] := by
  induction m generalizing h n with
  | zero => exact ⟨h, rfl, C, buried⟩
  | succ m ih =>
    obtain ⟨v, h₁, cell, b, made, C₁, found, managed, bare, capacity⟩ := Course.make C n
    obtain ⟨k, h₂, promoted, C₂⟩ := Course.promote F C₁ (by omega) found managed bare capacity
    obtain ⟨C₃, buried₃⟩ := C₂.collect F.name
    obtain ⟨C₄, buried₄⟩ := workTurns_run F.name (pace n) C₃ buried₃
    obtain ⟨h', rest, C', buried'⟩ := ih C₄ buried₄ (by omega)
    have turn : churnTurn c length n h = .ok ⟨⟩ h₂ := by
      unfold churnTurn
      rw [if_neg (F.small (by omega))]
      exact (Op.bind_of_ok made).trans (Op.discard_run promoted)
    have order : n + 1 + m = n + (m + 1) := by omega
    exact ⟨h', (Op.bind_of_ok turn).trans rest, order ▸ C', buried'⟩

/-- The wait ends once the worker caught up, or with its last turn. -/
theorem waitIdle_run (name : 0 ∉ Utf8.encode config.workerName) (m : Nat)
    (C : h.Churning supply c config length n done) (buried : h.dead [.context c] = []) :
    ∃ h', waitIdle c m h = .ok (decide (n ≤ done + m)) h' ∧
      h'.Churning supply c config length n (min n (done + m)) ∧ h'.dead [.context c] = [] := by
  induction m generalizing h done with
  | zero =>
    obtain ⟨ctx, found, _⟩ := C.context
    obtain ⟨size, pending⟩ := C.waiting buried found
    have caught : ctx.reclaimer.pending = 0 ↔ n ≤ done + 0 := by omega
    have same : min n (done + 0) = done := by omega
    refine ⟨h, ?_, same.symm ▸ C, buried⟩
    rw [waitIdle, Op.context_bind found]
    exact congrArg (fun idle => EStateM.Result.ok idle h) (decide_eq_decide.mpr caught)
  | succ m ih =>
    obtain ⟨ctx, found, _⟩ := C.context
    obtain ⟨size, pending⟩ := C.waiting buried found
    rw [waitIdle, Op.context_bind found]
    split
    · rename_i none
      have all : done = n := by omega
      have same : min n (done + (m + 1)) = done := by omega
      refine ⟨h, ?_, same.symm ▸ C, buried⟩
      rw [decide_eq_true (by omega)]
      rfl
    · rename_i some
      obtain ⟨C', buried'⟩ := workTurn_run name C buried
      obtain ⟨h', rest, C'', buried''⟩ := ih C' buried'
      have sum : min n (done + 1) + m = done + (m + 1) := by omega
      rw [sum] at rest C''
      exact ⟨h', (Op.modify_bind _ _).trans rest, C'', buried''⟩

end Pace

/-! ### What it leaves -/

def spent (addressIndex : Bool) (count : Nat) : Snapshot where
  peers := 0
  registered := count
  pending := 0
  released := count
  liveBytes := 0
  counter := .ofNat (0x0DEF000000000001 + 2 * count)
  addressIndex
  switches := ElemType.all.map (fun t => (t, decide (t = .double ∧ 0 < count)))

/-- The snapshot while the worker released only so many of the peers. -/
def churned (addressIndex : Bool) (options : ChurnOptions) (done : Nat) : Snapshot :=
  { spent addressIndex options.count with
    peers := options.count - done
    pending := options.count - done
    released := done
    liveBytes := (options.count - done) * (8 * options.length) }

theorem churned_all (addressIndex : Bool) (options : ChurnOptions) :
    churned addressIndex options options.count = spent addressIndex options.count := by
  simp [churned, spent]

theorem counter_spent (addressIndex : Bool) (count : Nat) :
    (spent addressIndex count).counter.toNat = (0x0DEF000000000001 + 2 * count) % 2 ^ 64 :=
  UInt64.toNat_ofNat' ..

theorem drawn_standard {config : Config} (standard : config.handles = .standard) (n : Nat) :
    ((Registry.ofConfig config).drawn n).raw = .ofNat (0x0DEF000000000001 + 2 * n) := by
  refine UInt64.toNat_inj.mp ?_
  rw [Registry.toNat_drawn, UInt64.toNat_ofNat', Registry.ofConfig, standard, Nat.mul_comm n]
  rfl

/-- The standard sequence comes round after 2 ^ 63 handles. -/
theorem feasible_standard {supply : Nat → Nat → Option Address} {config : Config}
    (standard : config.handles = .standard) (name : 0 ∉ Utf8.encode config.workerName) {count length : Nat}
    (few : count < 2 ^ 63)
    (granted : 0 < count → ∀ n, ¬ Block.Refused (fun bytes => (supply n bytes).isSome)
      (Op.blockSize (8 * length))) : Course.Feasible supply config count length where
  name := name
  few := by
    have period : 2 ^ 64 / Nat.gcd (2 ^ 64) config.handles.step = 2 ^ 63 := by
      rw [standard]
      decide
    omega
  granted := granted

section

variable {supply : Nat → Nat → Option Address} {c : ContextId} {config : Config} {options : ChurnOptions}
  {done : Nat} {h : Heap}

theorem snapshot_churned (standard : config.handles = .standard)
    (C : h.Churning supply c config options.length options.count done)
    (buried : h.dead [.context c] = []) : ∃ ctx, h.contexts.find? c = some ctx ∧
      ctx.snapshot = churned config.addressIndex options done := by
  obtain ⟨ctx, found, _⟩ := C.context
  refine ⟨ctx, found, (C.snapshot buried found).trans ?_⟩
  rw [drawn_standard standard]
  rfl

theorem Course.leaves_nothing {start : Course} (S : Sound supply c config options.length start)
    (F : Feasible supply config options.count options.length) (standard : config.handles = .standard)
    (run : Run c options.length start ⟨options.count, .between, h⟩) (settled : h.Settled [.context c]) :
    (h.contexts.find? c).map Context.snapshot = some (spent config.addressIndex options.count) := by
  obtain ⟨done, C⟩ := (S.run F run (Nat.le_refl _)).churning
  obtain ⟨ctx, found, shown⟩ := snapshot_churned standard C settled.buried
  have idle := settled.idle c ((h.contexts.mem_ids_iff c).mpr ⟨ctx, found⟩)
  have all := (C.queue_eq_nil_iff settled.buried).2.mp idle
  rw [all, churned_all] at shown
  exact (congrArg (Option.map _) found).trans (congrArg some shown)

end

def Host.releases (host : Host) (options : ChurnOptions) : Nat :=
  min options.count (caughtUp host.between options.count + host.within options.wait)

theorem churn_run {host : Host} {config : Config} {options : ChurnOptions} {clock : Nat}
    (standard : config.handles = .standard)
    (F : Course.Feasible host.supply config options.count options.length)
    (wait : clock + options.wait ≤ lastSecond) :
    ∃ h, (do churn (← Op.addContext (.ofConfig config)) options clock host : Op (Bool × Snapshot))
      { supply := host.supply } = .ok (decide (host.releases options = options.count),
        churned config.addressIndex options (host.releases options)) h := by
  have C := Churning.start host.supply config options.length
  have buried := C.buried_start
  obtain ⟨h₁, turned, C₁, buried₁⟩ := churnFrom_run F host.between options.count C buried (by omega)
  rw [Nat.zero_add] at C₁
  obtain ⟨h₂, waited, C₂, buried₂⟩ := waitIdle_run F.name (host.within options.wait) C₁ buried₁
  obtain ⟨ctx, found, shown⟩ := snapshot_churned standard C₂ buried₂
  have all : options.count ≤ caughtUp host.between options.count + host.within options.wait ↔
      host.releases options = options.count := by
    unfold Host.releases
    omega
  refine ⟨h₂, ?_⟩
  change churn _ options clock host _ = _
  unfold churn
  refine (Op.bind_of_ok turned).trans ?_
  rw [if_neg (Nat.not_lt.mpr wait)]
  refine (Op.bind_of_ok waited).trans ((Op.context_bind found _).trans ?_)
  rw [shown, decide_eq_decide.mpr all]
  rfl

theorem inContext_run {config : Config} {host : Host} {op : ContextId → Op (Bool × Snapshot)} {idle : Bool}
    {s : Snapshot} (run : ∃ h, (do op (← Op.addContext (.ofConfig config)) : Op (Bool × Snapshot))
      { supply := host.supply } = .ok (idle, s) h) :
    inContext config (fun c => return snapshotText (← op c).2) host = ⟨0, snapshotText s⟩ := by
  obtain ⟨h, run⟩ := run
  have shown : (do return snapshotText (← op (← Op.addContext (.ofConfig config))).2 : Op String)
      { supply := host.supply } = .ok (snapshotText s) h :=
    Op.bind_of_ok (show op _ _ = .ok (idle, s) h from run)
  unfold inContext
  dsimp only
  rw [shown]

/-- Churn leaves nothing behind, if the handles do not come round and memory holds the vectors. In a new
context and on the command line the worker releases as many peers as its pace allows, all of them if it
keeps up, and once it released all nothing is left. An empty vector, which has the sentinel instead of a
block, is no exception. Nor does it matter between which steps of the loop burials and the worker come: the
loop goes on until its last turn, from there the worker can catch up, and what it leaves is the same. -/
theorem churn_leaves_nothing (options : ChurnOptions) (host : Host) (few : options.count < 2 ^ 63)
    (granted : 0 < options.count → ∀ n, ¬ Block.Refused (fun bytes => (host.supply n bytes).isSome)
      (Op.blockSize (8 * options.length))) :
    (∀ config clock, config.handles = .standard → 0 ∉ Utf8.encode config.workerName →
      clock + options.wait ≤ lastSecond →
      (do churn (← Op.addContext (.ofConfig config)) options clock host : Op (Bool × Snapshot)).result
        { supply := host.supply } = .ok (decide (host.releases options = options.count),
          churned config.addressIndex options (host.releases options))) ∧
    (∀ config c start, config.handles = .standard → 0 ∉ Utf8.encode config.workerName →
      Op.addContext (.ofConfig config) { supply := host.supply } = .ok c start →
      (∀ s, Course.Run c options.length ⟨0, .between, start⟩ s → s.turns < options.count →
        ∃ s', Course.LoopStep c options.length s s') ∧
      ∀ h, Course.Run c options.length ⟨0, .between, start⟩ ⟨options.count, .between, h⟩ →
        (∃ h', Course.Run c options.length ⟨options.count, .between, h⟩ ⟨options.count, .between, h'⟩ ∧
          h'.Settled [.context c]) ∧
        (h.Settled [.context c] →
          (h.contexts.find? c).map Context.snapshot = some (spent config.addressIndex options.count))) ∧
    (∀ showAddress clock names i, i.request = .churn options → clock + options.wait ≤ lastSecond →
      perform showAddress clock names i host = ⟨0, snapshotText
        (churned (i.addressIndex || names.contains addressIndexVariable) options (host.releases options))⟩) ∧
    ((∀ i, 1 ≤ host.between i) → host.releases options = options.count) ∧
    ∀ addressIndex, churned addressIndex options options.count = spent addressIndex options.count ∧
      (spent addressIndex options.count).counter.toNat =
        (0x0DEF000000000001 + 2 * options.count) % 2 ^ 64 := by
  refine ⟨fun config clock standard name wait => ?_, fun config c start standard name made => ?_,
    fun showAddress clock names i asked wait => ?_, fun steady => ?_,
    fun addressIndex => ⟨churned_all addressIndex options, counter_spent addressIndex options.count⟩⟩
  · obtain ⟨h, run⟩ := churn_run standard (feasible_standard standard name few granted) wait
    unfold Op.result
    rw [run]
  · have F : Course.Feasible host.supply config _ _ := feasible_standard standard name few granted
    have S := Course.Sound.start host.supply config options.length
    cases made
    refine ⟨fun s run more => (S.run F run (Nat.le_of_lt more)).goesOn F more, fun h run => ⟨?_, ?_⟩⟩
    · have S' := S.run F run (Nat.le_refl _)
      exact ⟨_, (Course.endures S' F (Nat.le_refl _)).settle .refl⟩
    · exact Course.leaves_nothing S F standard run
  · let config : Config := { Config.ofEnvironment names with
      addressIndex := i.addressIndex || names.contains addressIndexVariable }
    have asked' : (if i.addressIndex then (Config.ofEnvironment names).set (.addressIndex true)
        else Config.ofEnvironment names) = config := by
      cases on : i.addressIndex <;> simp [config, on, Config.set, Config.ofEnvironment]
    have name : 0 ∉ Utf8.encode config.workerName :=
      (by decide : 0 ∉ Utf8.encode Config.default.workerName)
    have F : Course.Feasible host.supply config _ _ := feasible_standard rfl name few granted
    have printed := inContext_run (churn_run rfl F wait)
    unfold perform
    rw [asked]
    change inContext (ite _ _ _) _ _ = _
    rw [asked']
    exact printed
  · rw [Host.releases, caughtUp_steady steady]
    omega

/-- Three vectors of two doubles, of which the worker releases one before the wait. Two seconds are enough
for the others, as they are for empty vectors. With no wait two are still pending. -/
theorem churn_leaves_nothing_late :
    let host : Host := { between := fun i => if i = 1 then 1 else 0, within := fun seconds => seconds }
    let churns (length wait : Nat) : Output :=
      perform (fun _ => "") 1 [] { request := .churn { count := 3, length, wait } } host
    let left : Snapshot :=
      { peers := 0, registered := 3, pending := 0, released := 3, liveBytes := 0
        counter := 0x0DEF000000000007, addressIndex := false
        switches := [(.int, false), (.double, true), (.logical, false), (.complex, false), (.raw, false),
          (.str, false), (.list, false)] }
    churns 2 2 = ⟨0, snapshotText left⟩ ∧ churns 0 2 = ⟨0, snapshotText left⟩ ∧
      churns 2 0 =
        ⟨0, snapshotText { left with peers := 2, pending := 2, released := 1, liveBytes := 32 }⟩ := by
  intro host churns left
  have ample : ∀ n, (fun bytes => (host.supply n bytes).isSome) = Block.ample := by
    refine fun n => funext (fun bytes => ?_)
    change Option.isSome (if Block.ample bytes then _ else _) = _
    cases Block.ample bytes <;> rfl
  have shown : ∀ length wait, ¬ Block.Refused Block.ample (Op.blockSize (8 * length)) →
      1 + wait ≤ lastSecond → churns length wait = ⟨0, snapshotText
        (churned false { count := 3, length, wait } (host.releases { count := 3, length, wait }))⟩ := by
    intro length wait granted soon
    obtain ⟨_, _, printed, _, _⟩ := churn_leaves_nothing { count := 3, length, wait } host
      (by decide : 3 < 2 ^ 63) (fun _ n => by rw [ample]; exact granted)
    exact printed (fun _ => "") 1 [] { request := .churn { count := 3, length, wait } } rfl soon
  refine ⟨(shown 2 2 (by decide) (by decide)).trans ?_, (shown 0 2 (by decide) (by decide)).trans ?_,
    (shown 2 0 (by decide) (by decide)).trans ?_⟩
  · exact congrArg (fun s => Output.mk 0 (snapshotText s)) (by decide)
  · exact congrArg (fun s => Output.mk 0 (snapshotText s)) (by decide)
  · exact congrArg (fun s => Output.mk 0 (snapshotText s)) (by decide)

end CommandLine
end VectorHeap
