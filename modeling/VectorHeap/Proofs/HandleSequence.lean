import Mathlib.Data.Nat.ModEq
import Mathlib.Logic.Function.Iterate
import Mathlib.Tactic.Ring
import VectorHeap.Proofs.Lookup
import VectorHeap.Proofs.Postings

/-! The handle sequence in numbers. Draws walk over the residues modulo 2^64 in even steps from an odd
start, so how soon a handle comes again depends on the powers of two in the step. What a context has
drawn can be read off the handles that it registered. -/
namespace VectorHeap

namespace HandleSequence

def start (s : HandleSequence) : Nat := s.base.toNat / 2 * 2 + 1

def step (s : HandleSequence) : Nat := max s.stride.toNat 2 / 2 * 2

theorem start_odd (s : HandleSequence) : s.start % 2 = 1 := by
  unfold start
  omega

theorem step_even (s : HandleSequence) : s.step % 2 = 0 := by
  unfold step
  omega

theorem toNat_base (s : HandleSequence) : s.normalize.base.toNat = s.start := by
  have bits : s.normalize.base.toNat = s.base.toNat ||| 1 := by
    simp only [normalize, UInt64.toNat_or]
    rfl
  have half : (s.base.toNat ||| 1) / 2 = s.base.toNat / 2 := by simp [Nat.or_div_two]
  have low : (s.base.toNat ||| 1) % 2 = 1 := Nat.or_mod_two_eq_one.mpr (.inr rfl)
  unfold start
  omega

theorem toNat_stride (s : HandleSequence) : s.normalize.stride.toNat = s.step := by
  have large : (if s.stride < 2 then 2 else s.stride).toNat = max s.stride.toNat 2 := by
    split
    · rename_i small
      rw [UInt64.lt_iff_toNat_lt] at small
      exact (Nat.max_eq_right (Nat.le_of_lt small)).symm
    · rename_i large
      rw [UInt64.lt_iff_toNat_lt] at large
      exact (Nat.max_eq_left (Nat.le_of_not_lt large)).symm
  have bound : max s.stride.toNat 2 < 2 ^ 64 := Nat.max_lt.mpr ⟨s.stride.toNat_lt, by decide⟩
  have bits : s.normalize.stride.toNat = max s.stride.toNat 2 &&& 0xFFFFFFFFFFFFFFFE := by
    rw [← large]
    simp only [normalize, UInt64.toNat_and]
    rfl
  have half : (max s.stride.toNat 2 &&& 0xFFFFFFFFFFFFFFFE) / 2 = max s.stride.toNat 2 / 2 := by
    rw [Nat.and_div_two, show 0xFFFFFFFFFFFFFFFE / 2 = 2 ^ 63 - 1 from rfl,
      Nat.and_two_pow_sub_one_eq_mod, Nat.mod_eq_of_lt]
    omega
  have low := Heap.even_stride s
  rw [bits] at low ⊢
  unfold step
  omega

private theorem eq_of_toNat {s t : HandleSequence} (base : s.base.toNat = t.base.toNat)
    (stride : s.stride.toNat = t.stride.toNat) : s = t := by
  cases s
  cases t
  simp only [HandleSequence.mk.injEq]
  exact ⟨UInt64.toNat_inj.mp base, UInt64.toNat_inj.mp stride⟩

theorem normalize_normalize (s : HandleSequence) : s.normalize.normalize = s.normalize := by
  refine eq_of_toNat ?_ ?_
  · rw [toNat_base, start, toNat_base, start]
    omega
  · rw [toNat_stride, step, toNat_stride, step]
    omega

end HandleSequence

/-! ### Draws -/

namespace Registry

variable (r : Registry)

def drawn (n : Nat) : Handle := (Registry.draw^[n] r).nextHandle

theorem stride_draws (n : Nat) : (Registry.draw^[n] r).stride = r.stride := by
  induction n with
  | zero => rfl
  | succ n ih => rw [Function.iterate_succ_apply']; exact ih

theorem toNat_drawn (n : Nat) :
    (r.drawn n).raw.toNat = (r.counter.toNat + n * r.stride.toNat) % 2 ^ 64 := by
  induction n with
  | zero => rw [Nat.zero_mul, Nat.add_zero, Nat.mod_eq_of_lt r.counter.toNat_lt]; rfl
  | succ n ih =>
    have next : (r.drawn (n + 1)).raw = (r.drawn n).raw + r.stride := by
      unfold drawn
      rw [Function.iterate_succ_apply']
      exact congrArg ((Registry.draw^[n] r).counter + ·) (stride_draws r n)
    rw [next, UInt64.toNat_add, ih, Nat.mod_add_mod, Nat.succ_mul, Nat.add_assoc]

/-- Two draws give one handle just if the counter wrapped to where it was. -/
theorem drawn_eq_iff {i j : Nat} (lt : i ≤ j) :
    r.drawn i = r.drawn j ↔ 2 ^ 64 ∣ (j - i) * r.stride.toNat := by
  have numbers : r.drawn i = r.drawn j ↔ (r.drawn i).raw.toNat = (r.drawn j).raw.toNat := by
    refine ⟨fun same => by rw [same], fun same => ?_⟩
    exact congrArg Handle.mk (UInt64.toNat_inj.mp same)
  have le : i * r.stride.toNat ≤ j * r.stride.toNat := Nat.mul_le_mul_right _ lt
  rw [numbers, toNat_drawn, toNat_drawn, Nat.sub_mul]
  exact ⟨fun same => (Nat.modEq_iff_dvd' le).mp (Nat.ModEq.add_left_cancel' _ same),
    fun wrapped => Nat.ModEq.add_left _ ((Nat.modEq_iff_dvd' le).mpr wrapped)⟩

theorem drawn_injective {i j : Nat} (lt : i < j) (near : j - i < 2 ^ 64 / Nat.gcd (2 ^ 64) r.stride.toNat) :
    r.drawn i ≠ r.drawn j := by
  intro same
  have wrapped := (r.drawn_eq_iff (Nat.le_of_lt lt)).mp same
  have positive : 0 < Nat.gcd (2 ^ 64) r.stride.toNat := Nat.gcd_pos_of_pos_left _ (by decide)
  have period : 2 ^ 64 / Nat.gcd (2 ^ 64) r.stride.toNat ∣ j - i := by
    refine (Nat.coprime_div_gcd_div_gcd positive).dvd_of_dvd_mul_right ?_
    obtain ⟨m, multiple⟩ := wrapped
    refine ⟨m, Nat.eq_of_mul_eq_mul_right positive ?_⟩
    rw [Nat.mul_assoc, Nat.div_mul_cancel (Nat.gcd_dvd_right _ _), multiple, Nat.mul_right_comm,
      Nat.div_mul_cancel (Nat.gcd_dvd_left _ _)]
  exact absurd (Nat.le_of_dvd (by omega) period) (by omega)

end Registry

/-! ### Counters of contexts -/

/-- The counter is where the handles that were registered took it. -/
structure Context.Counts (ctx : Context) : Prop where
  counter : ctx.registry.counter.toNat =
    (ctx.config.handles.start + ctx.registry.registered * ctx.config.handles.step) % 2 ^ 64
  stride : ctx.registry.stride.toNat = ctx.config.handles.step

namespace Context.Counts

theorem ofConfig (config : Config) : (Context.ofConfig config).Counts where
  counter := by
    have base : config.handles.start < 2 ^ 64 := by
      rw [← HandleSequence.toNat_base]
      exact UInt64.toNat_lt _
    rw [show (Context.ofConfig config).registry.registered = 0 from rfl, Nat.zero_mul, Nat.add_zero]
    exact (HandleSequence.toNat_base _).trans (Nat.mod_eq_of_lt base).symm
  stride := HandleSequence.toNat_stride _

theorem congr {ctx ctx' : Context} (C : ctx.Counts) (config : ctx'.config = ctx.config)
    (counter : ctx'.registry.counter = ctx.registry.counter)
    (stride : ctx'.registry.stride = ctx.registry.stride)
    (registered : ctx'.registry.registered = ctx.registry.registered) : ctx'.Counts where
  counter := by rw [config, counter, registered]; exact C.counter
  stride := by rw [config, stride]; exact C.stride

theorem listing {ctx : Context} (C : ctx.Counts) (k : Handle) (p : PeerId) (site : String) :
    (Heap.listing ctx k p site).Counts where
  counter := by
    change (ctx.registry.counter + ctx.registry.stride).toNat =
      (ctx.config.handles.start + (ctx.registry.registered + 1) * ctx.config.handles.step) % 2 ^ 64
    rw [UInt64.toNat_add, C.counter, C.stride, Nat.mod_add_mod, Nat.succ_mul, Nat.add_assoc]
  stride := C.stride

end Context.Counts

namespace Heap

variable {T : VectorId → Backing → Prop} {h h' h₀ : Heap} {c : ContextId} {past : List Heap}

/-- A context, if it is there, counts as it should. -/
def CountsIn (h : Heap) (c : ContextId) : Prop :=
  ∀ ctx, h.contexts.find? c = some ctx → ctx.Counts

theorem CountsIn.modifyContext (C : h.CountsIn c) (i : ContextId) {f : Context → Context}
    (same : ∀ ctx, (f ctx).config = ctx.config ∧
      (f ctx).registry.counter = ctx.registry.counter ∧
      (f ctx).registry.stride = ctx.registry.stride ∧
      (f ctx).registry.registered = ctx.registry.registered) : (h.modifyContext i f).CountsIn c := by
  intro ctx' found'
  by_cases this : i = c
  · subst this
    obtain ⟨ctx, found, rfl⟩ := Option.map_eq_some_iff.mp ((Store.find_modify_self ..).symm.trans found')
    obtain ⟨config, counter, stride, registered⟩ := same ctx
    exact (C ctx found).congr config counter stride registered
  · exact C ctx' ((Store.find_modify_ne _ _ this).symm.trans found')

theorem CountsIn.addContext (C : h.CountsIn c) (config : Config) :
    CountsIn { h with contexts := h.contexts.add (.ofConfig config) } c := by
  intro ctx' found'
  rcases Store.eq_or_find_of_find_add found' with ⟨_, rfl⟩ | old
  · exact .ofConfig config
  · exact C ctx' old

theorem Posting.countsIn (posting : Posting T h h') (C : h.CountsIn c) : h'.CountsIn c := by
  cases posting with
  | quiet Q =>
    intro ctx' found'
    obtain ⟨ctx, found, same⟩ := exists_of_map_eq (Q.contexts c) found'
    have registry : ctx'.registry = ctx.registry := congrArg (·.2.1) same
    exact (C ctx found).congr (congrArg (·.1) same) (by rw [registry]) (by rw [registry])
      (by rw [registry])
  | context config unclaimed => exact C.addContext config
  | buffer foreign n nonzero free => exact C
  | sentinel i ctx address n found none nonzero free =>
    exact CountsIn.modifyContext (h := { h with allocations := n }) C i
      (fun _ => ⟨rfl, rfl, rfl, rfl⟩)
  | listed i ctx o site found own bare free =>
    intro ctx' found'
    by_cases this : i = c
    · subst this
      cases (context_listed found).symm.trans found'
      exact (C ctx found).listing ..
    · exact C ctx' ((context_listed_ne this).symm.trans found')
  | backed i o p q b own pointer found offered allowed =>
    refine CountsIn.modifyContext C i (f := fun ctx => { ctx with
      registry := (ctx.registry.dropContents q.backing).addContents q.handle b }) (fun ctx => ⟨rfl, ?_⟩)
    obtain ⟨_, counter, stride, registered⟩ :=
      accounts_addContents (ctx.registry.dropContents q.backing) q.handle b
    obtain ⟨_, counter', stride', registered'⟩ := accounts_dropContents ctx.registry q.backing
    exact ⟨counter.trans counter', stride.trans stride', registered.trans registered'⟩

theorem Posted.countsIn (posted : Posted T h h') (C : h.CountsIn c) : h'.CountsIn c :=
  posted.carry C (fun _ last => last.countsIn)

theorem Refusal.countsIn {f : Fault} (R : h.Refusal f h') (elsewhere : h'.LastElsewhere c) (C : h.CountsIn c) :
    h'.CountsIn c :=
  fun ctx' found' => C ctx' ((R.same_context elsewhere).symm.trans found')

/-! ### Releases and burials -/

theorem CountsIn.modifyReclaimer (C : h.CountsIn c) (d : ContextId) (f : Reclaimer → Reclaimer) :
    (h.modifyReclaimer d f).CountsIn c :=
  CountsIn.modifyContext C d (fun _ => ⟨rfl, rfl, rfl, rfl⟩)

theorem CountsIn.release (C : h.CountsIn c) (d : ContextId) (p : PeerId) :
    (h.release d p).1.CountsIn c := by
  cases found : h.peers.find? p with
  | none =>
    unfold Heap.release
    rw [found]
    exact C
  | some q =>
    rw [release_eq found]
    split
    · exact C
    · refine CountsIn.modifyContext C d (f := fun ctx => { ctx with
        registry := (ctx.registry.remove q.handle p).dropContents q.backing }) (fun ctx => ⟨rfl, ?_⟩)
      obtain ⟨_, counter, stride, registered⟩ :=
        accounts_dropContents (ctx.registry.remove q.handle p) q.backing
      obtain ⟨counter', stride', registered'⟩ := remove_rest ctx.registry q.handle p
      exact ⟨counter.trans counter', stride.trans stride', registered.trans registered'⟩

theorem CountsIn.finishPeer (C : h.CountsIn c) (d : ContextId) (p : PeerId) :
    (h.finishPeer d p).CountsIn c :=
  (C.release d p).modifyReclaimer d (·.finish (h.release d p).2)

theorem CountsIn.reclaim (C : h.CountsIn c) (d : ContextId) (p : PeerId) :
    (h.reclaim d p).CountsIn c := by
  have counted := C.modifyReclaimer d (·.count)
  rcases reclaim_cases h d p with ⟨running, queued⟩ | direct | ⟨panic, refused⟩
  · rw [queued]
    exact counted.modifyReclaimer d _
  · rw [direct]
    exact counted.finishPeer d p
  · rw [refused]
    exact counted

theorem CountsIn.work (C : h.CountsIn c) (d : ContextId) : (h.work d).CountsIn c := by
  rcases work_cases h d with idle | ⟨ctx, p, rest, _, _, run⟩
  · rw [idle]
    exact C
  · rw [run]
    exact (C.modifyReclaimer d _).finishPeer d p

theorem CountsIn.bury (C : h.CountsIn c) (r : Ref) : (h.bury r).CountsIn c := by
  have gone : (h.without r).CountsIn c := by
    obtain ⟨_, _, _, contexts, _⟩ := find_without h r
    exact fun ctx found => C ctx (contexts c ctx found)
  unfold Heap.bury
  split
  · exact gone.reclaim _ _
  · exact gone

/-! ### Runs -/

theorem call_countsIn (call : Call) (C : h.CountsIn c) :
    Op.Outcome call.op h (fun _ h' => h'.CountsIn c) (fun f h' => DistinctIn c h' f → h'.CountsIn c) := by
  by_cases old : ∀ config, call ≠ .newContext config
  · have posts := call.posts_of_unclaimed (h := h) (fun config made => absurd made (old config))
    refine Op.Outcome.mono posts (fun _ _ o => o.1.countsIn C) ?_
    rintro f h' (posted | ⟨twice, h₁, posted, refused⟩) expected
    · exact posted.countsIn C
    · exact refused.countsIn (expected twice) (posted.countsIn C)
  · obtain ⟨config, rfl⟩ : ∃ config, call = .newContext config := by simpa using old
    exact Op.Outcome.of_ok rfl (C.addContext config)

theorem step_countsIn (s : Step (DistinctIn c h') h h') (C : h.CountsIn c) : h'.CountsIn c := by
  cases s with
  | answer call ok run => exact (call_countsIn call C).ok run
  | stop call f ok run expected => exact (call_countsIn call C).error run expected
  | bury roots r dead => exact C.bury r
  | work d => exact C.work d
  | shutdown d => exact C.modifyReclaimer d _

/-- Runs in which a context registers no handle twice. Between the steps anybody may release any peer, or
hand it in, also one whose owner is alive. -/
inductive OpenRun (c : ContextId) (h₀ : Heap) : Heap → Prop
  | start : OpenRun c h₀ h₀
  | step {h h' : Heap} (run : OpenRun c h₀ h) (last : Step (DistinctIn c h') h h') : OpenRun c h₀ h'
  | release {h : Heap} (run : OpenRun c h₀ h) (d : ContextId) (p : PeerId) : OpenRun c h₀ (h.release d p).1
  | reclaim {h : Heap} (run : OpenRun c h₀ h) (d : ContextId) (p : PeerId) : OpenRun c h₀ (h.reclaim d p)

theorem RunIn.open (run : RunIn c h₀ past h) : OpenRun c h₀ h := by
  induction run with
  | start => exact .start
  | step run last ih => exact ih.step last
  | release run d p ownerless ih => exact ih.release d p
  | reclaim run d p there ownerless ih => exact ih.reclaim d p

theorem OpenRun.countsIn (C : h₀.CountsIn c) (run : OpenRun c h₀ h) : h.CountsIn c := by
  induction run with
  | start => exact C
  | step run last ih => exact step_countsIn last ih
  | release run d p ih => exact ih.release d p
  | reclaim run d p ih => exact ih.reclaim d p

end Heap

/-- For every base and stride, brought to normal form first or only by the context: the n-th handle is
the start and n steps modulo 2^64, odd and so never none. Two draws give one handle just if the steps
between them add up to a multiple of 2^64, so as many draws in a row as the step has residues are all
distinct. And after any run in which a context registered no handle twice, whatever was released by hand
meanwhile, its counter is where the handles that it registered took it. -/
theorem Registry.handles_drawn (config : Config) (s : HandleSequence) :
    (config.set (.handles s)).handles.normalize = s.normalize ∧
    (config.set (.rawHandles s)).handles.normalize = s.normalize ∧
    (∀ setting ∈ [Setting.handles s, .rawHandles s],
      let r := Registry.ofConfig (config.set setting)
      (∀ n, (r.drawn n).raw.toNat = (s.start + n * s.step) % 2 ^ 64 ∧
        (r.drawn n).raw.toNat % 2 = 1 ∧ (r.drawn n).isSome = true) ∧
      (∀ i j, i < j → (r.drawn i = r.drawn j ↔ 2 ^ 64 ∣ (j - i) * s.step)) ∧
      (∀ n i j, n ≤ i → i < j → j < n + 2 ^ 64 / Nat.gcd (2 ^ 64) s.step → r.drawn i ≠ r.drawn j) ∧
      ∀ supply c h ctx, Heap.OpenRun c { supply } h → h.contexts.find? c = some ctx →
        ctx.config.handles = (config.set setting).handles →
        ctx.registry.counter.toNat = (s.start + ctx.registry.registered * s.step) % 2 ^ 64) := by
  refine ⟨s.normalize_normalize, rfl, fun setting chosen => ?_⟩
  have normal : (config.set setting).handles.normalize = s.normalize := by
    rcases (by simpa using chosen : setting = .handles s ∨ setting = .rawHandles s) with rfl | rfl
    · exact s.normalize_normalize
    · rfl
  have start : (Registry.ofConfig (config.set setting)).counter.toNat = s.start := by
    rw [← HandleSequence.toNat_base, ← normal]
    rfl
  have step : (Registry.ofConfig (config.set setting)).stride.toNat = s.step := by
    rw [← HandleSequence.toNat_stride, ← normal]
    rfl
  refine ⟨fun n => ?_, fun i j lt => ?_, fun n i j first lt last => ?_, ?_⟩
  · have value := (Registry.ofConfig (config.set setting)).toNat_drawn n
    rw [start, step] at value
    have odd : ((Registry.ofConfig (config.set setting)).drawn n).raw.toNat % 2 = 1 := by
      have even : n * s.step % 2 = 0 := by rw [Nat.mul_mod, s.step_even, Nat.mul_zero, Nat.zero_mod]
      have start_odd := s.start_odd
      omega
    refine ⟨value, odd, bne_iff_ne.mpr (fun zero => ?_)⟩
    rw [zero] at odd
    exact absurd odd (by decide)
  · rw [← step]
    exact Registry.drawn_eq_iff _ (Nat.le_of_lt lt)
  · rw [← step] at last
    exact Registry.drawn_injective _ lt (by omega)
  · intro supply c h ctx run found same
    have counts := run.countsIn (fun _ there => absurd there (by simp)) ctx found
    rw [counts.counter, same, ← HandleSequence.toNat_base, ← HandleSequence.toNat_stride, normal,
      HandleSequence.toNat_base, HandleSequence.toNat_stride]

/-- With half of all residues as the stride the third handle is the first one again. A peer that is released
while its owner lives still counts. -/
theorem Registry.handles_drawn_wrapping :
    let s : HandleSequence := ⟨0, 0x8000000000000000⟩
    let r := Registry.ofConfig (Config.default.set (.rawHandles s))
    (r.drawn 1).raw.toNat = 0x8000000000000001 ∧ r.drawn 0 ≠ r.drawn 1 ∧ r.drawn 0 = r.drawn 2 ∧
      ∃ h ctx, Heap.OpenRun ⟨0⟩ {} h ∧ h.isAlive (.vector ⟨0⟩) = true ∧
        h.contexts.find? ⟨0⟩ = some ctx ∧ ctx.registry.peers.keys = [] ∧
        ctx.registry.registered = 1 ∧ ctx.registry.counter.toNat = 0x8000000000000001 := by
  obtain ⟨_, _, all⟩ := Registry.handles_drawn .default ⟨0, 0x8000000000000000⟩
  obtain ⟨nth, again, apart, reached⟩ := all (.rawHandles ⟨0, 0x8000000000000000⟩) (by simp)
  have run₁ : Run Heap.Distinct {} [{}] _ := Run.start.step
    (.answer (.newContext (Config.default.set (.rawHandles ⟨0, 0x8000000000000000⟩)))
      ⟨by decide, by simp⟩ rfl)
  have run₂ := run₁.step (.answer (.newVector ⟨0⟩ .int [.int 1]) ⟨by decide, by simp⟩ rfl)
  have run₃ := run₂.step (.answer (.ensureHandle (.vector ⟨0⟩)) ⟨by decide, by simp⟩ rfl)
  have run := (Heap.RunIn.of_run (c := ⟨0⟩) run₃).open.release ⟨0⟩ ⟨0⟩
  refine ⟨(nth 1).1, apart 0 0 1 (by decide) (by decide) (by decide),
    (again 0 2 (by decide)).mpr (by decide), _, _, run, rfl, rfl, rfl, rfl, ?_⟩
  exact reached _ ⟨0⟩ _ _ run rfl rfl

end VectorHeap
