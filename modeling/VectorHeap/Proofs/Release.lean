import VectorHeap.Proofs.History

/-! No leak and no early release. When a context has released all that was handed in, and the dead are
buried, its registry lists the peers of its live objects and nothing else. -/
namespace VectorHeap

/-- Something on a list is on a cycle if everything on the list has a predecessor there. -/
theorem cycle_of_predecessors {α : Type} {r : α → α → Prop} (n : Nat) (as : List α)
    (bound : as.length ≤ n) (some : as ≠ []) (before : ∀ a ∈ as, ∃ b ∈ as, r b a) :
    ∃ a, Relation.TransGen r a a := by
  classical
  induction n generalizing as with
  | zero => exact absurd (List.length_eq_zero_iff.mp (Nat.le_zero.mp bound)) some
  | succ n ih =>
    -- What comes before one of them is a shorter list unless that one comes before itself.
    obtain ⟨a, ha⟩ := List.exists_mem_of_ne_nil as some
    by_cases cycle : Relation.TransGen r a a
    · exact ⟨a, cycle⟩
    · refine ih (as.filter (fun b => decide (Relation.TransGen r b a))) ?_ ?_ (fun b hb => ?_)
      · have shorter : (as.filter (fun b => decide (Relation.TransGen r b a))).length < as.length :=
          List.length_filter_lt_length_iff_exists.mpr ⟨a, ha, by simpa using cycle⟩
        omega
      · obtain ⟨b, hb, first⟩ := before a ha
        exact List.ne_nil_of_mem (List.mem_filter.mpr ⟨hb, by simpa using .single first⟩)
      · obtain ⟨mem, later⟩ := List.mem_filter.mp hb
        obtain ⟨b', hb', first⟩ := before b mem
        refine ⟨b', List.mem_filter.mpr ⟨hb', ?_⟩, first⟩
        have path : Relation.TransGen r b' a := by
          have later : Relation.TransGen r b a := by simpa using later
          exact Relation.TransGen.trans (.single first) later
        simpa using path

namespace Heap

variable {h : Heap}

/-- A strong reference to the object exists. -/
def Live (h : Heap) (roots : List Ref) (o : Object) : Prop := .ofObject o ∈ roots ++ h.refs

instance (h : Heap) (roots : List Ref) (o : Object) : Decidable (h.Live roots o) :=
  inferInstanceAs (Decidable (Ref.ofObject o ∈ roots ++ h.refs))

/-- A vector holds its elements, and a frame what it binds. -/
inductive Holds (h : Heap) : Ref → Ref → Prop
  | element {v : VectorId} {cell : VectorCell} {e : Elem} {o : Object}
      (found : h.vectors.find? v = some cell) (mem : e ∈ h.elements cell) (ho : e.object? = some o) :
    Holds h (.vector v) (.ofObject o)
  | binding {f : FrameId} {b : Frame} {name : String} {value : Value} {r : Ref}
      (found : h.frames.find? f = some b) (bound : b.find? name = some value) (hr : r ∈ value.refs) :
    Holds h (.frame f) r

/-- An object is found if it has a strong reference, and only then unless it waits for its burial. -/
theorem isAlive_iff_live (I : h.Intact) {roots : List Ref} (rooted : ∀ r ∈ roots, h.has r = true)
    {o : Object} (buried : .ofObject o ∉ h.dead roots) : h.isAlive o = true ↔ h.Live roots o := by
  rw [Live, List.mem_append]
  constructor
  · intro alive
    rw [← has_ofObject] at alive
    refine Decidable.byContradiction (fun unheld => ?_)
    obtain ⟨unrooted, unheld⟩ := not_or.mp unheld
    have dead : Ref.ofObject o ∈ h.dead roots :=
      mem_dead_iff.mpr ⟨alive, unrooted, unheld, fun c e => by cases o <;> simp [Ref.ofObject] at e⟩
    exact buried dead
  · rintro (root | held)
    · rw [← has_ofObject]
      exact rooted _ root
    · rw [← has_ofObject]
      exact I.has_of_mem_refs held

theorem Accounted.owner_alive {c : ContextId} {ctx : Context} (A : h.Accounted c ctx 0)
    (drained : ctx.reclaimer.pending = 0) {k : Handle} {p : PeerId}
    (entry : ctx.registry.peer? k = some p) :
    ∃ q, h.peers.find? p = some q ∧ h.contextOf? q.owner = some c ∧ h.peerOf? q.owner = some p := by
  obtain ⟨q, hq, _, owns⟩ := A.entry k p entry
  have pending := A.pending
  rw [drained] at pending
  have none : ¬ h.isForsaken p = true :=
    List.countP_eq_zero.mp pending.symm (k, p) ((Table.mem_entries_iff _ k p).mpr entry)
  rw [isForsaken_eq hq, Option.isNone_iff_eq_none] at none
  obtain ⟨c', own⟩ := Option.ne_none_iff_exists'.mp none
  obtain ⟨rfl, pointer⟩ := owns c' own
  exact ⟨q, hq, own, pointer⟩

theorem entry_iff_live (I : h.Intact) (B : h.Balanced) {roots : List Ref}
    (rooted : ∀ r ∈ roots, h.has r = true) (buried : h.dead roots = []) {c : ContextId}
    {ctx : Context} (found : h.contexts.find? c = some ctx) (drained : ctx.reclaimer.pending = 0)
    (k : Handle) (p : PeerId) : ctx.registry.peer? k = some p ↔
      ∃ o, h.Live roots o ∧ h.contextOf? o = some c ∧ h.peerOf? o = some p ∧ h.handleOf o = k := by
  have A := B c ctx found
  constructor
  · intro entry
    obtain ⟨q, hq, own, pointer⟩ := A.owner_alive drained entry
    refine ⟨q.owner, ?_, own, pointer, ?_⟩
    · exact (isAlive_iff_live I rooted (buried ▸ List.not_mem_nil)).mp (alive_of_peerOf pointer)
    · exact (handleOf_eq pointer hq).trans (I.handle_of_entry found entry hq)
  · rintro ⟨o, _, own, pointer, rfl⟩
    obtain ⟨q, hq, _⟩ := I.peer_of_object pointer
    rw [handleOf_eq pointer hq]
    exact A.listed o p q own pointer hq

/-- Whatever peer was listed was released once if its owner is dead, and not if it is alive. -/
theorem releases_eq (I : h.Intact) (B : h.Balanced) {past : List Heap}
    (R : Recorded (h :: past) h) {roots : List Ref} (rooted : ∀ r ∈ roots, h.has r = true)
    (buried : h.dead roots = []) {c : ContextId} {ctx : Context}
    (found : h.contexts.find? c = some ctx) (drained : ctx.reclaimer.pending = 0) {p : PeerId}
    {o : Object} (was : WasListed c p o (h :: past)) :
    releases p (h :: past) = if h.Live roots o then 0 else 1 := by
  rcases R.once c p o (has_context_iff.mpr ⟨ctx, found⟩) was with ⟨L, none⟩ | ⟨G, one⟩
  · obtain ⟨ctx', k, q, found', entry, hq, rfl⟩ := L
    cases found.symm.trans found'
    obtain ⟨q', hq', _, pointer⟩ := (B c ctx found).owner_alive drained entry
    cases hq.symm.trans hq'
    rw [none, if_pos ((isAlive_iff_live I rooted (buried ▸ List.not_mem_nil)).mp (alive_of_peerOf pointer))]
  · rw [one, if_neg]
    intro live
    have alive := (isAlive_iff_live I rooted (buried ▸ List.not_mem_nil)).mpr live
    exact absurd (alive.symm.trans G.dead) (by decide)

/-! ### Objects that nobody refers to -/

/-- What can be on a cycle: vectors, frames, and strings other than NA strings. -/
def Plain (h : Heap) : Ref → Prop
  | .vector v => h.has (.vector v) = true
  | .frame f => h.has (.frame f) = true
  | .string s => h.has (.string s) = true ∧ ∀ c ctx, h.contexts.find? c = some ctx →
    ctx.naString ≠ some s
  | _ => False

theorem peer_owner_alive (I : h.Intact) (B : h.Balanced) {roots : List Ref}
    (contexts : ∀ r ∈ roots, ∃ c, r = .context c) (buried : h.dead roots = [])
    (drained : ∀ c ctx, h.contexts.find? c = some ctx → ctx.reclaimer.pending = 0) {p : PeerId}
    {q : Peer} (hq : h.peers.find? p = some q) : h.peerOf? q.owner = some p := by
  have listed : ∀ c ctx k, h.contexts.find? c = some ctx → ctx.registry.peer? k = some p →
      h.peerOf? q.owner = some p := by
    intro c ctx k found entry
    obtain ⟨q', hq', _, pointer⟩ := (B c ctx found).owner_alive (drained c ctx found) entry
    cases hq.symm.trans hq'
    exact pointer
  have held : Ref.peer p ∈ h.refs := by
    refine Decidable.byContradiction (fun unheld => ?_)
    have dead : Ref.peer p ∈ h.dead roots := by
      refine mem_dead_iff.mpr ⟨has_peer_iff.mpr ⟨q, hq⟩, fun root => ?_, unheld, fun c e => ?_⟩
      · obtain ⟨c, e⟩ := contexts _ root
        exact absurd e (by simp)
      · exact absurd e (by simp)
    rw [buried] at dead
    exact absurd dead (by simp)
  have pointed : ∀ o, h.peerOf? o = some p → h.peerOf? q.owner = some p := by
    intro o pointer
    obtain ⟨q', hq', owner, _⟩ := I.peer_of_object pointer
    cases hq.symm.trans hq'
    rw [owner]
    exact pointer
  rcases mem_refs_iff.mp held with ⟨v, cell, found, hr⟩ | ⟨s, cell, found, hr⟩ | ⟨i, q', _, hr⟩ |
    ⟨c, ctx, found, hr⟩ | ⟨f, b, _, name, value, _, hr⟩
  · rcases mem_vector_refs.mp hr with e | ⟨i, hi, e⟩ | ⟨b, _, hr⟩
    · exact absurd e (by simp)
    · cases e
      exact pointed (.vector v) ((peerOf_vector found).trans hi)
    · obtain ⟨_, _, o, _, e⟩ := mem_buffer_refs.mp hr
      cases o <;> simp [Ref.ofObject] at e
  · obtain ⟨i, hi, e⟩ := mem_string_refs.mp hr
    cases e
    exact pointed (.string s) ((peerOf_string found).trans hi)
  · obtain ⟨o, _, e⟩ := mem_peer_refs.mp hr
    cases o <;> simp [Ref.ofObject] at e
  · rcases mem_context_refs.mp hr with ⟨s, _, e⟩ | ⟨k, i, entry, e⟩ | ⟨i, queued, e⟩
    · exact absurd e (by simp)
    · cases e
      exact listed c ctx k found entry
    · cases e
      obtain ⟨k, entry⟩ := (B c ctx found).waiting p queued
      exact listed c ctx k found entry
  · cases value <;> simp [Value.refs] at hr

theorem pin_holds (I : h.Intact) {p : PeerId} {q : Peer} {o : Object}
    (hq : h.peers.find? p = some q) (pointer : h.peerOf? q.owner = some p) (pin : o ∈ q.pins) :
    ∃ v, h.has (.vector v) = true ∧ h.Holds (.vector v) (.ofObject o) := by
  cases ho : q.owner with
  | string s =>
    rw [ho] at pointer
    obtain ⟨cell, found, hp⟩ := Option.bind_eq_some_iff.mp pointer
    rw [((I.strings s cell found).peer p q hp hq).2.2.1] at pin
    exact absurd pin (by simp)
  | vector v =>
    rw [ho] at pointer
    obtain ⟨cell, found, hp⟩ := Option.bind_eq_some_iff.mp pointer
    have F := I.vectors v cell found
    refine ⟨v, has_vector_iff.mpr ⟨cell, found⟩, ?_⟩
    cases hb : cell.buffer with
    | some b =>
      rw [((F.managed b hb).bare p q hp hq).2] at pin
      exact absurd pin (by simp)
    | none =>
      obtain ⟨p', q', hp', hq', N⟩ := F.native hb
      cases hp.symm.trans hp'
      cases hq.symm.trans hq'
      cases indirect : cell.type.isIndirect with
      | false =>
        rw [N.inline indirect] at pin
        exact absurd pin (by simp)
      | true =>
        refine .element found ?_ (Object.object_toElem o)
        rw [elements_native hb hp hq, nativeElements_indirect indirect]
        exact List.mem_map_of_mem pin

theorem Plain.held (I : h.Intact) (B : h.Balanced) {roots : List Ref}
    (contexts : ∀ r ∈ roots, ∃ c, r = .context c) (buried : h.dead roots = [])
    (drained : ∀ c ctx, h.contexts.find? c = some ctx → ctx.reclaimer.pending = 0) {r : Ref}
    (plain : h.Plain r) : ∃ r', h.Plain r' ∧ h.Holds r' r := by
  have held : r ∈ h.refs := by
    refine Decidable.byContradiction (fun unheld => ?_)
    have dead : r ∈ h.dead roots := by
      refine mem_dead_iff.mpr ⟨?_, fun root => ?_, unheld, fun c e => ?_⟩
      · cases r with
        | vector v => exact plain
        | frame f => exact plain
        | string s => exact plain.1
        | _ => exact plain.elim
      · obtain ⟨c, rfl⟩ := contexts r root
        exact plain
      · subst e
        exact plain.elim
    rw [buried] at dead
    exact absurd dead (by simp)
  rcases mem_refs_iff.mp held with ⟨v, cell, found, hr⟩ | ⟨s, cell, found, hr⟩ | ⟨p, q, hq, hr⟩ |
    ⟨c, ctx, found, hr⟩ | ⟨f, b, found, name, value, bound, hr⟩
  · rcases mem_vector_refs.mp hr with rfl | ⟨p, _, rfl⟩ | ⟨b, hb, hr⟩
    · exact plain.elim
    · exact plain.elim
    · obtain ⟨e, he, o, ho, rfl⟩ := mem_buffer_refs.mp hr
      refine ⟨.vector v, has_vector_iff.mpr ⟨cell, found⟩, .element found ?_ ho⟩
      rw [elements_managed hb]
      exact he
  · obtain ⟨p, _, rfl⟩ := mem_string_refs.mp hr
    exact plain.elim
  · obtain ⟨o, pin, rfl⟩ := mem_peer_refs.mp hr
    obtain ⟨v, there, holds⟩ :=
      pin_holds I hq (peer_owner_alive I B contexts buried drained hq) pin
    exact ⟨.vector v, there, holds⟩
  · rcases mem_context_refs.mp hr with ⟨s, hs, rfl⟩ | ⟨k, p, _, rfl⟩ | ⟨p, _, rfl⟩
    · exact absurd hs (plain.2 c ctx found)
    · exact plain.elim
    · exact plain.elim
  · exact ⟨.frame f, has_frame_iff.mpr ⟨b, found⟩, .binding found bound hr⟩

theorem not_plain_of_acyclic (I : h.Intact) (B : h.Balanced) {roots : List Ref}
    (contexts : ∀ r ∈ roots, ∃ c, r = .context c) (buried : h.dead roots = [])
    (drained : ∀ c ctx, h.contexts.find? c = some ctx → ctx.reclaimer.pending = 0)
    (acyclic : ∀ r, ¬ Relation.TransGen h.Holds r r) (r : Ref) : ¬ h.Plain r := by
  classical
  intro plain
  let all : List Ref := h.vectors.ids.map .vector ++ h.strings.ids.map .string ++ h.frames.ids.map .frame
  have complete : ∀ r, h.Plain r → r ∈ all.filter (fun r => decide (h.Plain r)) := by
    intro r plain
    refine List.mem_filter.mpr ⟨?_, by simpa using plain⟩
    cases r with
    | vector v =>
      have id := (h.vectors.mem_ids_iff v).mpr (has_vector_iff.mp plain)
      exact List.mem_append_left _ (List.mem_append_left _ (List.mem_map_of_mem id))
    | string s =>
      have id := (h.strings.mem_ids_iff s).mpr (has_string_iff.mp plain.1)
      exact List.mem_append_left _ (List.mem_append_right _ (List.mem_map_of_mem id))
    | frame f =>
      have id := (h.frames.mem_ids_iff f).mpr (has_frame_iff.mp plain)
      exact List.mem_append_right _ (List.mem_map_of_mem id)
    | _ => exact plain.elim
  obtain ⟨a, cycle⟩ := cycle_of_predecessors (r := h.Holds) _
    (all.filter (fun r => decide (h.Plain r))) (Nat.le_refl _) (List.ne_nil_of_mem (complete r plain))
    (fun b hb => by
      have plain : h.Plain b := by simpa using (List.mem_filter.mp hb).2
      obtain ⟨b', plain', holds⟩ := plain.held I B contexts buried drained
      exact ⟨b', complete b' plain', holds⟩)
  exact acyclic a cycle

/-- A heap that only contexts are kept of, and that has no cycles, has no listed peers but those of
NA strings. -/
theorem entry_of_acyclic (I : h.Intact) (B : h.Balanced) {roots : List Ref}
    (contexts : ∀ r ∈ roots, ∃ c, r = .context c) (buried : h.dead roots = [])
    (drained : ∀ c ctx, h.contexts.find? c = some ctx → ctx.reclaimer.pending = 0)
    (acyclic : ∀ r, ¬ Relation.TransGen h.Holds r r) {c : ContextId} {ctx : Context}
    (found : h.contexts.find? c = some ctx) {k : Handle} {p : PeerId}
    (entry : ctx.registry.peer? k = some p) :
    ∃ s, ctx.naString = some s ∧ h.peerOf? (.string s) = some p := by
  have none := not_plain_of_acyclic I B contexts buried drained acyclic
  obtain ⟨q, hq, own, pointer⟩ := (B c ctx found).owner_alive (drained c ctx found) entry
  have alive := alive_of_peerOf pointer
  cases ho : q.owner with
  | vector v =>
    rw [ho] at alive
    exact absurd alive (none (.vector v))
  | string s =>
    rw [ho] at alive own pointer
    refine ⟨s, Decidable.byContradiction (fun other => ?_), pointer⟩
    refine none (.string s) ⟨alive, fun c' ctx' found' na => ?_⟩
    obtain ⟨cell, there, context⟩ := Option.map_eq_some_iff.mp own
    have same := ((I.contexts c' ctx' found').naString s cell na there).1
    rw [context] at same
    subst same
    cases found.symm.trans found'
    exact other na

/-- After any run in which no handle was registered twice, once the dead are buried and a context has
nothing pending: its registry lists the peers of its live objects, each under its handle, and nothing
else; it has as many entries as were registered and not released; every peer that was ever listed was
released once if its owner is dead, and not if it is alive; and if nothing is pending anywhere, users
keep nothing but contexts and there is no cycle, only the NA string can be left in it. -/
theorem registry_after_run {supply : Nat → Nat → Option Address} {past : List Heap}
    (run : Run Distinct { supply } past h) (roots : List Ref)
    (rooted : ∀ r ∈ roots, h.has r = true) (buried : h.dead roots = []) {c : ContextId}
    {ctx : Context} (found : h.contexts.find? c = some ctx) (drained : ctx.reclaimer.pending = 0) :
    (∀ k p, ctx.registry.peer? k = some p ↔ ∃ o, h.Live roots o ∧ h.contextOf? o = some c ∧
      h.peerOf? o = some p ∧ h.handleOf o = k) ∧
    ctx.registry.peers.size + ctx.reclaimer.released = ctx.registry.registered ∧
    (∀ p o, WasListed c p o (h :: past) →
      releases p (h :: past) = if h.Live roots o then 0 else 1) ∧
    ((∀ c' ctx', h.contexts.find? c' = some ctx' → ctx'.reclaimer.pending = 0) →
      (∀ r ∈ roots, ∃ c', r = .context c') → (∀ r, ¬ Relation.TransGen h.Holds r r) →
      ∀ k p, ctx.registry.peer? k = some p →
        ∃ s, ctx.naString = some s ∧ h.peerOf? (.string s) = some p) := by
  have I := run_intact (intact_of_supply supply) run
  have B := run_balanced run
  refine ⟨entry_iff_live I B rooted buried found drained, (B c ctx found).size, fun p o was => ?_,
    fun idle contexts acyclic k p entry => ?_⟩
  · exact releases_eq I B (run_recorded run) rooted buried found drained was
  · exact entry_of_acyclic I B contexts buried idle acyclic found entry

/-- A promoted vector of one string that was dropped, while the string was kept. -/
theorem registry_after_drop :
    ∃ past h ctx, Run Distinct {} past h ∧ h.contexts.find? ⟨0⟩ = some ctx ∧
      ctx.registry.registered = 2 ∧ ctx.registry.peers.size + ctx.reclaimer.released = 2 ∧
      h.isAlive (.string ⟨0⟩) = true ∧ releases ⟨0⟩ (h :: past) = 0 ∧
      h.isAlive (.vector ⟨0⟩) = false ∧ releases ⟨1⟩ (h :: past) = 1 := by
  have run₁ : Run Distinct {} [{}] _ :=
    Run.start.step (.answer (.newContext .default) ⟨by decide, by simp⟩ rfl)
  have run₂ := run₁.step (.answer (.newString ⟨0⟩ "a") ⟨by decide, by simp⟩ rfl)
  have run₃ := run₂.step (.answer (.newVector ⟨0⟩ .str [.str ⟨0⟩]) ⟨by decide, by simp⟩ rfl)
  have run₄ := run₃.step (.answer (.promote ⟨0⟩) ⟨by decide, by simp⟩ rfl)
  have run₅ := run₄.step (.bury [.context ⟨0⟩, .string ⟨0⟩] (.vector ⟨0⟩) (by decide))
  have run₆ := run₅.step (.work ⟨0⟩)
  have run₇ := run₆.step (.bury [.context ⟨0⟩, .string ⟨0⟩] (.peer ⟨1⟩) (by decide))
  obtain ⟨_, size, released, _⟩ := registry_after_run run₇ [.context ⟨0⟩, .string ⟨0⟩]
    (by decide) rfl (c := ⟨0⟩) rfl rfl
  refine ⟨_, _, _, run₇, rfl, rfl, size, rfl, ?_, rfl, ?_⟩
  · exact released ⟨0⟩ (.string ⟨0⟩) ⟨_, List.mem_cons_self, _, ⟨0x0DEF000000000001⟩, _, rfl, rfl, rfl, rfl⟩
  · exact released ⟨1⟩ (.vector ⟨0⟩) ⟨_, .tail _ (.tail _ (.tail _ (.head _))), _,
      ⟨0x0DEF000000000003⟩, _, rfl, rfl, rfl, rfl⟩

end Heap
end VectorHeap
