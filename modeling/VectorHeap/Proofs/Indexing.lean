import VectorHeap.Proofs.Charting

/-! What the debugging tables answer after runs. The index finds a handle by an address just if an
unreleased peer with the handle has a block of its own there, and a site is known just for handles that
are listed; excepted are the block and the handle of a release that is under way. -/
namespace VectorHeap

namespace Overlap.Scene

open Heap

variable {h h' h'' h₀ : Heap} {c : ContextId} {s : Scene} {past : List Heap}

theorem Retains.trans (first : Retains c h h') (last : Retains c h' h'') (I : h.Intact) (F : h.Follows h')
    (F' : h'.Follows h'') : Retains c h h'' := by
  intro ctx ctx' k p found found' entry
  have issued := Store.lt_next_of_find _ c ctx found
  obtain ⟨ctx₁, found₁⟩ := has_context_iff.mp
    (F'.context c (Nat.lt_of_lt_of_le issued F.contexts) (has_context_iff.mpr ⟨ctx', found'⟩))
  rcases first ctx ctx₁ k p found found₁ entry with entry₁ | released
  · exact last ctx₁ ctx' k p found₁ found' entry₁
  · refine .inr (fun q' hq' => ?_)
    obtain ⟨q₀, hq₀⟩ := I.grounded p (.entry c ctx k found entry)
    have old := Nat.lt_of_lt_of_le (Store.lt_next_of_find _ p q₀ hq₀) F.peers
    obtain ⟨q, hq, _, final⟩ := F'.peer p q' old hq'
    exact final (released q hq)

/-- Along a run a peer that was listed is listed still under its handle, or it is released. -/
theorem Run.retains (C : Charted ⟨h₀, []⟩ c) (run : Run c h₀ past s) :
    ∀ g ∈ past, g.Intact ∧ g.Follows s.heap ∧ Retains c g s.heap := by
  induction run with
  | start => exact fun g mem => absurd mem List.not_mem_nil
  | step run last _ ih =>
    have before := run.charted C
    obtain ⟨follows, retains⟩ := step_retains before last
    intro g mem
    rcases List.mem_cons.mp mem with rfl | mem
    · exact ⟨before.intact, follows, retains⟩
    · obtain ⟨I, F, R⟩ := ih g mem
      exact ⟨I, F.trans follows, R.trans retains I F follows⟩

end Overlap.Scene

namespace Heap

open Overlap (Scene Release)

variable {h h₀ : Heap} {c : ContextId} {ctx : Context} {s : Scene} {past : List Heap}

/-! ### What the tables answer -/

theorem owned_of_address {p : PeerId} {a : Address} (there : h.address? (.block p) = some a) :
    ∃ q bytes, h.peers.find? p = some q ∧ q.backing = .owned a bytes := by
  obtain ⟨q, hq, lies⟩ := Option.bind_eq_some_iff.mp there
  cases hb : q.backing with
  | owned address bytes =>
    rw [hb] at lies
    cases lies
    exact ⟨q, bytes, hq, hb⟩
  | _ =>
    rw [hb] at lies
    exact absurd lies (by simp [Backing.owned?])

/-- An unreleased peer that the context once listed with a block of its own at an address. -/
def LiesAt (h : Heap) (c : ContextId) (trace : List Heap) (k : Handle) (a : Address) : Prop :=
  ∃ p o q bytes, WasListed c p o trace ∧ h.peers.find? p = some q ∧ q.released = false ∧
    q.handle = k ∧ q.backing = .owned a bytes

theorem handleAt_eq_some_iff (C : Scene.Charted ⟨h₀, []⟩ c) (run : Scene.Run c h₀ past s)
    (found : s.heap.contexts.find? c = some ctx) (on : ctx.config.addressIndex = true) {a : Address}
    (sound : ¬ (s.gaps c).address a) (k : Handle) :
    ctx.registry.handleAt? a = some k ↔ s.heap.LiesAt c (s.heap :: past) k a := by
  have charted := run.charted C
  obtain ⟨R, t⟩ := charted.tabled ctx found
  rw [t.index on a sound k]
  constructor
  · rintro ⟨p, entry, there⟩
    obtain ⟨q, bytes, hq, backing⟩ := owned_of_address there
    obtain ⟨q', hq', handle⟩ := R.entry k p entry
    cases hq.symm.trans hq'
    -- Of a released peer with a block the release would be under way, and a gap there.
    have live : q.released = false := by
      refine Bool.eq_false_iff.mpr (fun released => ?_)
      obtain ⟨r, under, rfl, held⟩ := (charted.flagged p q hq released).2 a there
      have own := (charted.sound r under).own.resolve_right (fun un => un ⟨ctx, k, found, entry⟩)
      exact sound ⟨r, under, own, .inl ⟨held, there⟩⟩
    exact ⟨p, q.owner, q, bytes, ⟨s.heap, List.mem_cons_self, ctx, k, q, found, entry, hq, rfl⟩, hq, live,
      handle, backing⟩
  · rintro ⟨p, o, q, bytes, ⟨g, mem, ctx₀, k', q₀, found₀, entry₀, hq₀, _⟩, hq, live, rfl, backing⟩
    have entry : ctx.registry.peer? k' = some p := by
      rcases List.mem_cons.mp mem with rfl | mem
      · cases found.symm.trans found₀
        exact entry₀
      · rcases (run.retains C g mem).2.2 ctx₀ ctx k' p found₀ found entry₀ with entry | released
        · exact entry
        · exact absurd (live.symm.trans (released q hq)) (by decide)
    obtain ⟨q', hq', handle⟩ := R.entry k' p entry
    cases hq.symm.trans hq'
    refine ⟨p, handle ▸ entry, ?_⟩
    rw [address?, hq, Option.bind_some, backing]
    rfl

/-- After any run in which a context registered no handle twice, no peer of a live object was released
by hand, no peer that it lists was released or handed in with another context, and no release was
overtaken: its address index, where there is one, finds a handle just where an unreleased peer of the
context with this handle has a block of its own, and so neither in foreign memory nor at a sentinel nor
where nothing lies; a site is known just for the handles that are listed. Excepted are a block that a
release under way is to take off the index and a handle whose site it is to forget. Without the tables
there is no answer. -/
theorem tables_after_run {supply : Nat → Nat → Option Address} {past : List Heap}
    (run : Scene.Run c { supply } past s) (found : s.heap.contexts.find? c = some ctx) :
    (ctx.config.addressIndex = true → ∀ a, ¬ (s.gaps c).address a →
      (∀ k, ctx.registry.handleAt? a = some k ↔ s.heap.LiesAt c (s.heap :: past) k a) ∧
      (∀ b foreign, s.heap.buffers.find? b = some foreign → foreign.address = a →
        ctx.registry.handleAt? a = none) ∧
      (∀ d, s.heap.sentinelOf? d = some a → ctx.registry.handleAt? a = none) ∧
      (a ∉ s.heap.liveAddresses → ctx.registry.handleAt? a = none)) ∧
    (ctx.config.addressIndex = false → ∀ a, ctx.registry.handleAt? a = none) ∧
    (ctx.config.traceSites = true → ∀ k, ¬ (s.gaps c).handle k →
      ((ctx.registry.site? k).isSome = true ↔ ∃ p, ctx.registry.peer? k = some p)) ∧
    (ctx.config.traceSites = false → ∀ k, ctx.registry.site? k = none) := by
  have C₀ := Scene.charted_of_supply supply c
  have C := run.charted C₀
  obtain ⟨R, t⟩ := C.tabled ctx found
  refine ⟨fun on a sound => ?_, fun off a => ?_, fun on k sound => ?_, fun off k => ?_⟩
  · -- What the index finds has a block there, so nothing else lies there.
    have vacant : (∀ p, s.heap.address? (.block p) ≠ some a) → ctx.registry.handleAt? a = none := by
      refine fun vacant => Option.eq_none_iff_forall_ne_some.mpr (fun k answer => ?_)
      obtain ⟨p, _, there⟩ := (t.index on a sound k).mp answer
      exact vacant p there
    refine ⟨handleAt_eq_some_iff C₀ run found on sound, fun b foreign there here => ?_, fun d made => ?_,
      fun free => vacant (fun p lies => free (mem_liveAddresses_iff.mpr ⟨_, lies⟩))⟩
    · refine vacant (fun p lies => ?_)
      have buffer : s.heap.address? (.buffer b) = some a := by rw [address?, there, ← here]; rfl
      exact absurd (C.spaced _ _ _ lies buffer) (by simp)
    · refine vacant (fun p lies => ?_)
      exact absurd (C.spaced (.block p) (.sentinel d) a lies made) (by simp)
  · have table : ctx.registry.byAddress = none :=
      Option.not_isSome_iff_eq_none.mp (by rw [t.indexes, off]; decide)
    rw [Registry.handleAt?, table]
    rfl
  · rw [t.sites on k sound]
    exact Option.isSome_iff_exists
  · have table : ctx.registry.sites = none :=
      Option.not_isSome_iff_eq_none.mp (by rw [t.traces, off]; decide)
    rw [Registry.site?, table]
    rfl

def inspected : Config := { addressIndex := true, traceSites := true }

/-- Of two vectors with native contents the second one grows and the first one dies, and a worker frees
its block. -/
def growth : List Scene.Act :=
  [.call (.newContext inspected),
   .call (.newVector ⟨0⟩ .int [.int 1]), .call (.promote ⟨0⟩),
   .call (.newVector ⟨0⟩ .int [.int 2]), .call (.promote ⟨1⟩), .call (.setCapacity ⟨1⟩ 2),
   .bury [.context ⟨0⟩, .vector ⟨1⟩] (.vector ⟨0⟩), .advance,
   .dequeue ⟨0⟩, .advance, .advance, .advance, .advance]

def grown : Scene := growth.foldl Scene.act ⟨{}, []⟩

/-- The freed block is a gap, where the index still has the handle of the dead vector. The vector that
grew is found where its block lies now, not where it lay. -/
theorem tables_after_growth :
    ∃ past ctx, Scene.Run ⟨0⟩ {} past grown ∧ grown.heap.contexts.find? ⟨0⟩ = some ctx ∧
      (grown.gaps ⟨0⟩).address 64 ∧ ctx.registry.handleAt? 64 = some ⟨0x0DEF000000000001⟩ ∧
      grown.heap.LiesAt ⟨0⟩ (grown.heap :: past) ⟨0x0DEF000000000003⟩ 192 ∧
      ctx.registry.handleAt? 128 = none ∧ ∃ p, ctx.registry.peer? ⟨0x0DEF000000000003⟩ = some p := by
  obtain ⟨past, run⟩ := Scene.Run.of_clears growth (.start : Scene.Run ⟨0⟩ {} [] _) (by decide +kernel)
  have values : (grown.heap.contexts.find? ⟨0⟩).map (fun ctx => (ctx.config.addressIndex,
      ctx.config.traceSites, ctx.registry.handleAt? 64, ctx.registry.handleAt? 192,
      ctx.registry.site? ⟨0x0DEF000000000003⟩ |>.isSome)) =
        some (true, true, some ⟨0x0DEF000000000001⟩, some ⟨0x0DEF000000000003⟩, true) := by decide +kernel
  obtain ⟨ctx, found, here⟩ := Option.map_eq_some_iff.mp values
  simp only [Prod.mk.injEq] at here
  obtain ⟨indexed, traced, at64, at192, sited⟩ := here
  have under : grown.underWay = [⟨⟨0⟩, ⟨0⟩, true, .freed (.owned 64 [1, 0, 0, 0])⟩] := by decide +kernel
  have freed : ∀ a, (grown.gaps ⟨0⟩).address a ↔ a = 64 := by
    intro a
    simp only [Scene.gaps, under, List.mem_singleton, exists_eq_left, Release.Blurs]
    simp [Overlap.Stage.holds, Backing.owned?, eq_comm]
  have settled : ∀ k, ¬ (grown.gaps ⟨0⟩).handle k := by
    intro k
    simp [Scene.gaps, under]
  obtain ⟨index, _, sites, _⟩ := tables_after_run run found
  have lies := (index indexed 192 (fun gap => absurd ((freed 192).mp gap) (by decide))).1
  have free := (index indexed 128 (fun gap => absurd ((freed 128).mp gap) (by decide))).2.2.2
  exact ⟨past, ctx, run, found, (freed 64).mpr rfl, at64, (lies _).mp at192, free (by decide +kernel),
    (sites traced _ (settled _)).mp sited⟩

/-- A worker frees the block of a dead vector, and the next promotion takes it up. -/
def reuse : List Scene.Act :=
  [.call (.newContext inspected),
   .call (.newVector ⟨0⟩ .int [.int 1]), .call (.promote ⟨0⟩), .call (.newVector ⟨0⟩ .int [.int 2]),
   .bury [.context ⟨0⟩, .vector ⟨1⟩] (.vector ⟨0⟩), .advance,
   .dequeue ⟨0⟩, .advance, .advance, .advance, .advance,
   .call (.promote ⟨1⟩), .advance, .advance, .advance, .advance]

def reused : Scene := reuse.foldl Scene.act ⟨{ supply := fun _ _ => some 64 }, []⟩

/-- The index names a released peer: a live vector whose peer is released by hand takes on a block when
it is promoted, and a block that is freed with another context stays in the index of its own. And it
misses a block that was taken up before the worker that freed it took it off the index. -/
theorem tables_after_release :
    (∃ past h h' k ctx, Run Distinct {} past h ∧ Op.promote ⟨0⟩ (h.release ⟨0⟩ ⟨0⟩).1 = .ok k h' ∧
      h'.contexts.find? ⟨0⟩ = some ctx ∧ ctx.registry.handleAt? 64 = some k ∧
      ∀ q ∈ h'.peers.values, q.released = true) ∧
    (∃ past h k ctx, Run Distinct {} past h ∧ h.Ownerless ⟨0⟩ ∧
      (h.release ⟨1⟩ ⟨0⟩).1.contexts.find? ⟨0⟩ = some ctx ∧ ctx.registry.handleAt? 64 = some k ∧
      ∀ q ∈ (h.release ⟨1⟩ ⟨0⟩).1.peers.values, q.released = true) ∧
    Relation.ReflTransGen (Scene.Step ⟨0⟩) ⟨{ supply := fun _ _ => some 64 }, []⟩ reused ∧
      reused.underWay = [] ∧ ∃ ctx k p q bytes, reused.heap.contexts.find? ⟨0⟩ = some ctx ∧
        ctx.config.addressIndex = true ∧ ctx.registry.peer? k = some p ∧
        reused.heap.peers.find? p = some q ∧ q.handle = k ∧ q.released = false ∧
        q.backing = .owned 64 bytes ∧ ctx.registry.handleAt? 64 = none := by
  have run₁ : Run Distinct {} [{}] _ :=
    Run.start.step (.answer (.newContext inspected) ⟨by decide, by simp⟩ rfl)
  have run₂ := run₁.step (.answer (.newVector ⟨0⟩ .int [.int 1]) ⟨by decide, by simp⟩ rfl)
  have run₃ := run₂.step (.answer (.ensureHandle (.vector ⟨0⟩)) ⟨by decide, by simp⟩ rfl)
  have other₁ := run₂.step (.answer (.newContext .default) ⟨by decide, by simp⟩ rfl)
  have other₂ := other₁.step (.answer (.promote ⟨0⟩) ⟨by decide, by simp⟩ rfl)
  have other₃ := other₂.step (.bury [.context ⟨0⟩, .context ⟨1⟩] (.vector ⟨0⟩) (by decide))
  refine ⟨⟨_, _, _, ⟨0x0DEF000000000001⟩, _, run₃, rfl, rfl, rfl, by decide⟩,
    ⟨_, _, ⟨0x0DEF000000000001⟩, _, other₃, fun q found => ?_, rfl, rfl, by decide⟩,
    Scene.steps_of_plays reuse _ (by decide +kernel), by decide +kernel, ?_⟩
  · cases found
    rfl
  · have values : (reused.heap.contexts.find? ⟨0⟩).map (fun ctx => (ctx.config.addressIndex,
        ctx.registry.peer? ⟨0x0DEF000000000003⟩, ctx.registry.handleAt? 64)) =
          some (true, some ⟨1⟩, none) := by decide +kernel
    have block : (reused.heap.peers.find? ⟨1⟩).map (fun q => (q.handle, q.released, q.backing)) =
        some (⟨0x0DEF000000000003⟩, false, .owned 64 [2, 0, 0, 0]) := by decide +kernel
    obtain ⟨ctx, found, here⟩ := Option.map_eq_some_iff.mp values
    obtain ⟨q, hq, there⟩ := Option.map_eq_some_iff.mp block
    simp only [Prod.mk.injEq] at here there
    exact ⟨ctx, _, ⟨1⟩, q, _, found, here.1, here.2.1, hq, there.1, there.2.1, there.2.2, here.2.2⟩

end Heap
end VectorHeap
