import Mathlib.Algebra.GroupWithZero.Nat
import VectorHeap.Proofs.Release

/-! The bytes that contexts count. A context counts the blocks of its listed peers, each as large as it
is, at every moment of a run; so what is taken off the count was on it. -/
namespace VectorHeap

theorem liveBytes_remove (r : Registry) (k : Handle) (p : PeerId) :
    (r.remove k p).liveBytes = r.liveBytes := by
  unfold Registry.remove
  split <;> rfl

namespace Heap

variable {h h' : Heap} {c : ContextId} {ctx : Context} {k : Handle} {p : PeerId}

def listedBytes (h : Heap) (t : Table Handle PeerId) : Nat :=
  (t.entries.map (fun e => h.ownedBytes e.2)).sum

/-- Each context counts the blocks of its listed peers. -/
def Metered (h : Heap) : Prop :=
  ∀ c ctx, h.contexts.find? c = some ctx → ctx.registry.liveBytes = h.listedBytes ctx.registry.peers

theorem listedBytes_congr {t : Table Handle PeerId}
    (owned : ∀ k p, t.find? k = some p → h'.ownedBytes p = h.ownedBytes p) :
    h'.listedBytes t = h.listedBytes t := by
  refine congrArg List.sum (List.map_congr_left (fun e he => ?_))
  exact owned e.1 e.2 ((Table.mem_entries_iff t e.1 e.2).mp he)

theorem listedBytes_erase {t : Table Handle PeerId} (entry : t.find? k = some p) :
    h.listedBytes t = h.ownedBytes p + h.listedBytes (t.erase k) := by
  have perm := (Assoc.perm_erase t.entries k p entry).map (fun e => h.ownedBytes e.2)
  exact perm.sum_nat.trans List.sum_cons

theorem Metered.owned_le (M : h.Metered) (found : h.contexts.find? c = some ctx)
    (entry : ctx.registry.peer? k = some p) : h.ownedBytes p ≤ ctx.registry.liveBytes := by
  rw [M c ctx found, listedBytes_erase entry]
  exact Nat.le_add_right _ _

/-! ### Changes -/

theorem Metered.transfer (M : h.Metered)
    (contexts : ∀ c ctx', h'.contexts.find? c = some ctx' →
      (∃ ctx, h.contexts.find? c = some ctx ∧ ctx'.registry.peers = ctx.registry.peers ∧
        ctx'.registry.liveBytes = ctx.registry.liveBytes) ∨ ∃ config, ctx' = .ofConfig config)
    (owned : ∀ c ctx k p, h.contexts.find? c = some ctx → ctx.registry.peer? k = some p →
      h'.ownedBytes p = h.ownedBytes p) : h'.Metered := by
  intro c ctx' found'
  rcases contexts c ctx' found' with ⟨ctx, found, peers, counted⟩ | ⟨config, rfl⟩
  · rw [counted, peers, M c ctx found]
    exact (listedBytes_congr (fun k p => owned c ctx k p found)).symm
  · rfl

theorem SameRegistries.metered (S : h.SameRegistries h') (M : h.Metered)
    (owned : ∀ c ctx k p, h.contexts.find? c = some ctx → ctx.registry.peer? k = some p →
      h'.ownedBytes p = h.ownedBytes p) : h'.Metered := by
  refine M.transfer (fun c ctx' found' => .inl ?_) owned
  obtain ⟨ctx, found, same⟩ := S c ctx' found'
  exact ⟨ctx, found, congrArg Registry.peers same, congrArg Registry.liveBytes same⟩

theorem Meters.metered {v : Option VectorId} {i : Option PeerId} (I : h.Intact) (B : h.Balanced)
    (M : h.Metered) (R : h.Revises v i h') (moved : h.Meters c i h')
    (own : ∀ p, i = some p → ∃ o, h.contextOf? o = some c ∧ h.peerOf? o = some p) : h'.Metered := by
  intro c' ctx' found'
  obtain ⟨ctx, found, same⟩ := exists_of_map_eq (R.contexts c') found'
  have table : ctx'.registry.peers = ctx.registry.peers := congrArg Accounts.peers same
  have before := M c' ctx found
  rw [table, ← liveBytes_eq found']
  rw [← liveBytes_eq found] at before
  cases moved with
  | still counted owned =>
    rw [counted, before]
    exact (listedBytes_congr (fun _ p _ => owned p)).symm
  | moved p mine elsewhere counted owned =>
    obtain ⟨o, context, pointer⟩ := own p mine
    obtain ⟨q, hq, owner, _⟩ := I.peer_of_object pointer
    by_cases here : c = c'
    · subst here
      have entry := (B c ctx found).listed o p q context pointer hq
      have rest : h'.listedBytes (ctx.registry.peers.erase q.handle) =
          h.listedBytes (ctx.registry.peers.erase q.handle) := by
        refine listedBytes_congr (fun k p' entry' => owned p' (fun e => ?_))
        have mem := (Table.mem_entries_iff _ k p').mpr entry'
        exact (I.ne_of_mem_erase found entry ⟨q, hq⟩ mem).2.2 e.symm
      rw [counted, before, listedBytes_erase entry, listedBytes_erase entry, rest]
      omega
    · rw [elsewhere c' here, before]
      refine (listedBytes_congr (fun k p' entry' => owned p' (fun e => ?_))).symm
      subst e
      obtain ⟨q', hq', _, owns⟩ := (B c' ctx found).entry k p entry'
      cases hq.symm.trans hq'
      exact here (owns c (owner ▸ context)).1

theorem listed_metered {o : Object} {site : String} (B : h.Balanced) (M : h.Metered)
    (found : h.contexts.find? c = some ctx) (free : ctx.registry.peer? k = none) :
    (h.listed c k o site).Metered := by
  have owned : ∀ c' ctx' k' p, h.contexts.find? c' = some ctx' → ctx'.registry.peer? k' = some p →
      (h.listed c k o site).ownedBytes p = h.ownedBytes p := by
    intro c' ctx' k' p found' entry
    obtain ⟨q, hq, _⟩ := (B c' ctx' found').entry k' p entry
    rw [ownedBytes_eq hq, ownedBytes_eq (find_listed_of_find hq)]
  intro c' ctx' found'
  by_cases here : c = c'
  · subst here
    cases (context_listed found).symm.trans found'
    have entries : (listing ctx k h.peers.fresh site).registry.peers.entries =
        ctx.registry.peers.entries ++ [(k, h.peers.fresh)] :=
      Assoc.insert_fresh ctx.registry.peers.entries k h.peers.fresh free
    have old := listedBytes_congr (fun k' p => owned c ctx k' p found)
    have new : (h.listed c k o site).ownedBytes h.peers.fresh = 0 := ownedBytes_eq find_listed_fresh
    change ctx.registry.liveBytes = _
    rw [M c ctx found, ← old, listedBytes, listedBytes, entries, List.map_append, List.sum_append_nat,
      List.map_singleton, List.sum_singleton, new, Nat.add_zero]
  · rw [context_listed_ne here] at found'
    rw [M c' ctx' found']
    exact (listedBytes_congr (fun k' p => owned c' ctx' k' p found')).symm

theorem Growth.metered (B : h.Balanced) (M : h.Metered) (G : h.Growth h') : h'.Metered := by
  cases G with
  | peer c ctx o site found own bare free => exact listed_metered B M found free
  | context config =>
    refine M.transfer (fun c ctx' found' => ?_) (fun _ _ _ _ _ _ => rfl)
    rcases Store.eq_or_find_of_find_add found' with ⟨_, rfl⟩ | old
    · exact .inr ⟨config, rfl⟩
    · exact .inl ⟨ctx', old, rfl, rfl⟩
  | naString c ctx s cell found unnamed string own na =>
    refine SameRegistries.metered (fun i ctx' found' => ?_) M (fun _ _ _ _ _ _ => rfl)
    exact exists_of_map_eq (h.contexts.map_find_modify c i (fun ctx => { ctx with naString := some s })
      (fun ctx => ctx.registry) (fun _ _ => rfl)) found'
  | _ =>
    exact SameRegistries.metered (fun _ ctx' found' => ⟨ctx', found', rfl⟩) M (fun _ _ _ _ _ _ => rfl)

theorem Change.metered {T : VectorId → Prop} {W : BufferId → Prop} (I : h.Intact) (B : h.Balanced)
    (M : h.Metered) (C : Change T W h h') : h'.Metered := by
  cases C with
  | growth G => exact G.metered B M
  | update v cell s own U metered buffers =>
    refine metered.metered I B M U.revises (fun p hp => ⟨.vector v, ?_, ?_⟩)
    · rw [contextOf?, U.found, Option.map_some]
    · exact (peerOf_vector U.found).trans hp
  | environs R buffers => exact (R.meters ⟨0⟩ none).metered I B M R (by simp)
  | text s cell p found pointer R metered formed buffers =>
    refine metered.metered I B M R (fun p' hp' => ⟨.string s, ?_, ?_⟩)
    · rw [contextOf?, found, Option.map_some]
    · exact (peerOf_string found).trans (pointer.trans hp')

theorem Moves.metered {T : VectorId → Prop} {W : BufferId → Prop} (I : h.Intact) (B : h.Balanced)
    (M : h.Metered) (moves : Moves T W h h') : h'.Metered := by
  induction moves with
  | refl => exact M
  | tail first last ih => exact last.metered (first.intact I) (first.balanced I B) ih

theorem Advances.metered {T : VectorId → Prop} {W : BufferId → Prop} (I : h.Intact) (B : h.Balanced)
    (M : h.Metered) (A : h.Advances T W h') : h'.Metered := by
  obtain ⟨h₁, moves, rfl | R⟩ := A
  · exact moves.metered I B M
  · have contexts : h'.contexts = h₁.contexts := by rw [R.rest]
    have peers : h'.peers = h₁.peers := by rw [R.rest]
    refine SameRegistries.metered (fun c ctx' found' => ⟨ctx', contexts ▸ found', rfl⟩)
      (moves.metered I B M) (fun _ _ _ p _ _ => ?_)
    rw [ownedBytes, ownedBytes, peers]

/-! ### Releases -/

theorem modifyReclaimer_metered (M : h.Metered) (c : ContextId) (f : Reclaimer → Reclaimer) :
    (h.modifyReclaimer c f).Metered :=
  (modifyReclaimer_same h c f).metered M (fun _ _ _ _ _ _ => rfl)

theorem finishPeer_metered (I : h.Intact) (B : h.Balanced) (M : h.Metered)
    (found : h.contexts.find? c = some ctx) (entry : ctx.registry.peer? k = some p) :
    (h.finishPeer c p).Metered := by
  obtain ⟨q, hq, live, _⟩ := (B c ctx found).entry k p entry
  have handle := I.handle_of_entry found entry hq
  subst handle
  have owned : ∀ p', p' ≠ p → (h.finishPeer c p).ownedBytes p' = h.ownedBytes p' := by
    intro p' other
    rw [ownedBytes, ownedBytes, peers_finished_ne hq live c other]
  intro c' ctx' found'
  by_cases here : c = c'
  · subst here
    cases (context_finished hq live found).symm.trans found'
    have rest : (h.finishPeer c p).listedBytes (ctx.registry.peers.erase q.handle) =
        h.listedBytes (ctx.registry.peers.erase q.handle) := by
      refine listedBytes_congr (fun k' p' entry' => owned p' ?_)
      have mem := (Table.mem_entries_iff _ k' p').mpr entry'
      exact (I.ne_of_mem_erase found entry ⟨q, hq⟩ mem).2.2
    have counted : (unlisting ctx q p).registry.liveBytes =
        ctx.registry.liveBytes - q.backing.ownedBytes := by
      refine (liveBytes_dropContents _ _).trans ?_
      rw [liveBytes_remove]
    rw [peers_unlisting entry, rest, counted, M c ctx found, listedBytes_erase entry, ownedBytes_eq hq]
    omega
  · rw [context_finished_ne hq live here] at found'
    rw [M c' ctx' found']
    refine (listedBytes_congr (fun k' p' entry' => owned p' (fun e => ?_))).symm
    exact here ((B c' ctx' found').own k' p' c ctx q.handle entry' found (e ▸ entry))

theorem reclaim_metered (I : h.Intact) (O : h.Owing c 1) (M : h.Metered)
    (found : h.contexts.find? c = some ctx) (entry : ctx.registry.peer? k = some p) :
    (h.reclaim c p).Metered := by
  have counted := modifyReclaimer_metered M c (·.count)
  rcases reclaim_cases h c p with ⟨running, queued⟩ | direct | ⟨panic, refused⟩
  · rw [queued]
    exact modifyReclaimer_metered counted c _
  · have found' : (h.modifyReclaimer c (·.count)).contexts.find? c =
        some { ctx with reclaimer := ctx.reclaimer.count } :=
      (Store.find_modify_self _ c _).trans (by rw [found]; rfl)
    have I' : (h.modifyReclaimer c (·.count)).Intact :=
      (modifyReclaimer_sheds I c _ (fun _ _ _ => .inl)).intact I
    rw [direct]
    exact finishPeer_metered I' (counted_balanced O) counted found' entry
  · rw [refused]
    exact counted

theorem without_metered (M : h.Metered) {r : Ref} (unheld : r ∉ h.refs) : (h.without r).Metered := by
  refine (without_same h r).metered M (fun c ctx k p found entry => ?_)
  rw [ownedBytes, ownedBytes, find_peer_without unheld (listed_held found entry)]

theorem bury_metered (I : h.Intact) (B : h.Balanced) (M : h.Metered) {r : Ref} (unheld : r ∉ h.refs) :
    (h.bury r).Metered := by
  rcases bury_cases I r with ⟨plain, _⟩ | ⟨o, c, p, rfl, own, there, pointer, handed⟩
  · rw [plain]
    exact without_metered M unheld
  · obtain ⟨ctx, found⟩ := has_context_iff.mp there
    obtain ⟨q, hq, _⟩ := I.peer_of_object pointer
    have entry := (B c ctx found).listed o p q own pointer hq
    rw [handed]
    exact reclaim_metered ((without_sheds I unheld).intact I)
      (without_owing I B unheld found own pointer) (without_metered M unheld)
      ((contexts_without o).symm ▸ found) entry

theorem work_metered (I : h.Intact) (B : h.Balanced) (M : h.Metered) (c : ContextId) :
    (h.work c).Metered := by
  rcases work_cases h c with idle | ⟨ctx, p, rest, found, queue, run⟩
  · rw [idle]
    exact M
  · obtain ⟨k, entry⟩ := (B c ctx found).waiting p (queue ▸ List.mem_cons_self)
    have found' : (h.modifyReclaimer c (fun _ => { ctx.reclaimer with queue := rest })).contexts.find? c =
        some { ctx with reclaimer := { ctx.reclaimer with queue := rest } } :=
      (Store.find_modify_self _ c _).trans (by rw [found]; rfl)
    rw [run]
    exact finishPeer_metered ((dequeued_sheds I found queue).intact I) (dequeued_balanced B found queue).2
      (modifyReclaimer_metered M c _) found' entry

/-! ### Steps -/

theorem step_metered (I : h.Intact) (B : h.Balanced) (M : h.Metered) (s : Step Distinct h h') :
    h'.Metered := by
  cases s with
  | answer call ok run => exact ((call.ends I ok).ok run).metered I B M
  | stop call f ok run expected =>
    rcases (call.ends I ok).error run with ⟨_, A⟩ | ⟨⟨k, rfl⟩, _⟩
    · exact A.metered I B M
    · exact absurd rfl (expected k)
  | bury roots r dead => exact bury_metered I B M (mem_dead_iff.mp dead).2.2.1
  | work c => exact work_metered I B M c
  | shutdown c => exact modifyReclaimer_metered M c _

theorem run_metered {supply : Nat → Nat → Option Address} {past : List Heap}
    (run : Run Distinct { supply } past h) : h.Metered := by
  induction run with
  | start => exact fun _ _ found => absurd found (by simp)
  | step first last ih =>
    exact step_metered (run_intact (intact_of_supply supply) first) (run_balanced first) ih last

/-! ### Whose blocks they are -/

theorem nodup_values (I : h.Intact) (B : h.Balanced) (found : h.contexts.find? c = some ctx) :
    ctx.registry.peers.values.Nodup := by
  have keys := List.pairwise_map.mp ctx.registry.peers.nodup
  refine List.pairwise_map.mpr (keys.imp_of_mem (fun {e e'} mem mem' other same => ?_))
  have entry := (Table.mem_entries_iff _ e.1 e.2).mp mem
  have entry' := (Table.mem_entries_iff _ e'.1 e'.2).mp mem'
  obtain ⟨q, hq, _⟩ := (B c ctx found).entry e.1 e.2 entry
  have handle := I.handle_of_entry found entry hq
  have handle' := I.handle_of_entry found (p := e.2) (same ▸ entry') hq
  exact other (handle.symm.trans handle')

theorem listedBytes_values (h : Heap) (t : Table Handle PeerId) :
    h.listedBytes t = (t.values.map h.ownedBytes).sum := by
  rw [Table.values, List.map_map]
  rfl

/-- The peers that a context listed and that are not released are the ones that it lists. -/
theorem mem_values_iff_unreleased {past : List Heap} (B : h.Balanced) (R : Recorded (h :: past) h)
    (found : h.contexts.find? c = some ctx) (p : PeerId) : p ∈ ctx.registry.peers.values ↔
      (∃ o, WasListed c p o (h :: past)) ∧ ∃ q, h.peers.find? p = some q ∧ q.released = false := by
  rw [Table.mem_values_iff]
  constructor
  · rintro ⟨k, entry⟩
    obtain ⟨q, hq, live, _⟩ := (B c ctx found).entry k p entry
    exact ⟨⟨q.owner, h, List.mem_cons_self, ctx, k, q, found, entry, hq, rfl⟩, q, hq, live⟩
  · rintro ⟨⟨o, was⟩, q, hq, live⟩
    rcases R.once c p o (has_context_iff.mpr ⟨ctx, found⟩) was with ⟨L, _⟩ | ⟨G, _⟩
    · obtain ⟨ctx', k, _, found', entry, _⟩ := L
      cases found.symm.trans found'
      exact ⟨k, entry⟩
    · exact absurd ((G.released q hq).symm.trans live) (by decide)

/-! ### When nothing is pending -/

theorem sum_filterMap {α β : Type} (g : α → Option β) (f : β → Nat) (as : List α) :
    ((as.filterMap g).map f).sum = (as.map (fun a => ((g a).map f).getD 0)).sum := by
  induction as with
  | nil => rfl
  | cons a as ih =>
    rw [List.map_cons, List.sum_cons, ← ih]
    cases hg : g a with
    | none => rw [List.filterMap_cons_none hg, Option.map_none, Option.getD_none, Nat.zero_add]
    | some b => rw [List.filterMap_cons_some hg, List.map_cons, List.sum_cons, Option.map_some,
        Option.getD_some]

def objects (h : Heap) : List Object := h.vectors.ids.map .vector ++ h.strings.ids.map .string

theorem mem_objects_iff {o : Object} : o ∈ h.objects ↔ h.isAlive o = true := by
  rw [objects, List.mem_append, List.mem_map, List.mem_map]
  cases o with
  | vector v =>
    rw [isAlive, Store.contains_iff, ← Store.mem_ids_iff]
    simp
  | string s =>
    rw [isAlive, Store.contains_iff, ← Store.mem_ids_iff]
    simp

theorem nodup_objects (h : Heap) : h.objects.Nodup := by
  refine List.nodup_append.mpr ⟨?_, ?_, fun o ho o' ho' same => ?_⟩
  · exact List.pairwise_map.mpr (h.vectors.table.nodup.imp (fun other same => other (by cases same; rfl)))
  · exact List.pairwise_map.mpr (h.strings.table.nodup.imp (fun other same => other (by cases same; rfl)))
  · obtain ⟨v, _, rfl⟩ := List.mem_map.mp ho
    obtain ⟨s, _, rfl⟩ := List.mem_map.mp ho'
    cases same

def peerIn? (h : Heap) (c : ContextId) (o : Object) : Option PeerId :=
  if h.contextOf? o = some c then h.peerOf? o else none

theorem peerIn_eq_some_iff {o : Object} :
    h.peerIn? c o = some p ↔ h.contextOf? o = some c ∧ h.peerOf? o = some p := by
  unfold peerIn?
  split
  · rename_i own
    simp only [own, true_and]
  · rename_i other
    simp only [other, false_and, reduceCtorEq]

theorem values_perm (I : h.Intact) (B : h.Balanced) (found : h.contexts.find? c = some ctx)
    (drained : ctx.reclaimer.pending = 0) :
    ctx.registry.peers.values.Perm (h.objects.filterMap (h.peerIn? c)) := by
  have A := B c ctx found
  have nodup : (h.objects.filterMap (h.peerIn? c)).Nodup := by
    refine List.Pairwise.filterMap _ (fun o o' other p hp p' hp' same => ?_) h.nodup_objects
    subst same
    exact other (I.owner_unique (peerIn_eq_some_iff.mp hp).2 (peerIn_eq_some_iff.mp hp').2)
  refine (List.perm_ext_iff_of_nodup (nodup_values I B found) nodup).mpr (fun p => ?_)
  rw [Table.mem_values_iff, List.mem_filterMap]
  constructor
  · rintro ⟨k, entry⟩
    obtain ⟨q, _, own, pointer⟩ := A.owner_alive drained entry
    exact ⟨q.owner, mem_objects_iff.mpr (alive_of_peerOf pointer), peerIn_eq_some_iff.mpr ⟨own, pointer⟩⟩
  · rintro ⟨o, _, listed⟩
    obtain ⟨own, pointer⟩ := peerIn_eq_some_iff.mp listed
    obtain ⟨q, hq, _⟩ := I.peer_of_object pointer
    exact ⟨q.handle, A.listed o p q own pointer hq⟩

def slotBytes (h : Heap) (c : ContextId) (v : VectorId) : Nat :=
  match h.vectors.find? v with
  | some cell =>
    if cell.context = c ∧ cell.buffer.isNone ∧ h.foreign? v = none then
      cell.type.nativeWidth * cell.capacity
    else 0
  | none => 0

def copyBytes (h : Heap) (c : ContextId) (s : StringId) : Nat :=
  match h.strings.find? s with
  | some cell =>
    if cell.context = c ∧ (h.backingOf (.string s)).isAllocated then
      (Utf8.encode cell.text).length + 1
    else 0
  | none => 0

theorem slotBytes_eq (I : h.Intact) {v : VectorId} {cell : VectorCell}
    (found : h.vectors.find? v = some cell) :
    h.slotBytes c v = ((h.peerIn? c (.vector v)).map h.ownedBytes).getD 0 := by
  have F := I.vectors v cell found
  have context : h.contextOf? (.vector v) = some cell.context := by
    rw [contextOf?, found, Option.map_some]
  simp only [slotBytes, found, peerIn?, context, Option.some.injEq]
  by_cases here : cell.context = c
  · rw [if_pos here, peerOf_vector found]
    cases hb : cell.buffer with
    | some b =>
      rw [if_neg (by simp)]
      cases hp : cell.peer with
      | none => rfl
      | some p =>
        obtain ⟨q, hq, _⟩ := I.peer_of_vector found hp
        rw [Option.map_some, Option.getD_some, ownedBytes_eq hq,
          ((F.managed b hb).bare p q hp hq).1]
        rfl
    | none =>
      obtain ⟨p, q, hp, hq, N⟩ := F.native hb
      rw [hp, Option.map_some, Option.getD_some, ownedBytes_eq hq]
      by_cases own : h.foreign? v = none
      · rw [if_pos ⟨here, rfl, own⟩]
        refine (N.backed.ownedBytes (fun a i external => ?_)).symm
        have foreign := foreign_eq_some_iff.mpr ⟨cell, p, q, a, found, hp, hq, external⟩
        exact absurd (own.symm.trans foreign) (by simp)
      · obtain ⟨b, foreign⟩ := Option.ne_none_iff_exists'.mp own
        obtain ⟨cell', p', q', a, found', hp', hq', external⟩ := foreign_eq_some_iff.mp foreign
        cases found.symm.trans found'
        cases hp.symm.trans hp'
        cases hq.symm.trans hq'
        rw [if_neg (fun both => own both.2.2), external]
        rfl
  · rw [if_neg (fun both => here both.1), if_neg here]
    rfl

theorem copyBytes_eq (I : h.Intact) {s : StringId} {cell : StringCell}
    (found : h.strings.find? s = some cell) :
    h.copyBytes c s = ((h.peerIn? c (.string s)).map h.ownedBytes).getD 0 := by
  have context : h.contextOf? (.string s) = some cell.context := by
    rw [contextOf?, found, Option.map_some]
  simp only [copyBytes, found, peerIn?, context, Option.some.injEq]
  by_cases here : cell.context = c
  · rw [if_pos here, peerOf_string found]
    cases hp : cell.peer with
    | none =>
      have bare : h.backingOf (.string s) = .unallocated := by
        simp only [backingOf, peerOf_string found, hp, Option.bind_none]
      rw [bare, if_neg (by simp [Backing.isAllocated])]
      rfl
    | some p =>
      obtain ⟨q, hq, _⟩ := I.peer_of_string found hp
      have backing : h.backingOf (.string s) = q.backing := by
        simp only [backingOf, peerOf_string found, hp, Option.bind_some, hq]
      rw [backing, Option.map_some, Option.getD_some, ownedBytes_eq hq]
      rcases ((I.strings s cell found).peer p q hp hq).2.2.2 with bare | ⟨a, bytes, owned, _, size⟩
      · rw [bare, if_neg (by simp [Backing.isAllocated])]
        rfl
      · rw [owned, if_pos ⟨here, rfl⟩]
        exact size.symm
  · rw [if_neg (fun both => here both.1), if_neg here]
    rfl

theorem liveBytes_of_drained (I : h.Intact) (B : h.Balanced) (M : h.Metered)
    (found : h.contexts.find? c = some ctx) (drained : ctx.reclaimer.pending = 0) :
    ctx.registry.liveBytes = (h.vectors.ids.map (h.slotBytes c)).sum +
      (h.strings.ids.map (h.copyBytes c)).sum := by
  have vectors : h.vectors.ids.map (h.slotBytes c) = h.vectors.ids.map
      (fun v => ((h.peerIn? c (.vector v)).map h.ownedBytes).getD 0) := by
    refine List.map_congr_left (fun v hv => ?_)
    obtain ⟨cell, found⟩ := (h.vectors.mem_ids_iff v).mp hv
    exact slotBytes_eq I found
  have strings : h.strings.ids.map (h.copyBytes c) = h.strings.ids.map
      (fun s => ((h.peerIn? c (.string s)).map h.ownedBytes).getD 0) := by
    refine List.map_congr_left (fun s hs => ?_)
    obtain ⟨cell, found⟩ := (h.strings.mem_ids_iff s).mp hs
    exact copyBytes_eq I found
  rw [M c ctx found, listedBytes_values, ((values_perm I B found drained).map _).sum_nat, sum_filterMap,
    objects, List.map_append, List.sum_append_nat, List.map_map, List.map_map, vectors, strings]
  rfl

/-- After any run in which no handle was registered twice, and wherever an operation is from there, a
context counts the blocks of the peers that it listed and that are not released, each once; so no block
is taken off that was not on the count. Once nothing is pending, these are the native slots of its
vectors, but for foreign ones, and the native copies of its strings, and all of these are live as soon
as the dead are buried. -/
theorem live_bytes_after_run {supply : Nat → Nat → Option Address} {past : List Heap}
    (run : Run Distinct { supply } past h) (found : h.contexts.find? c = some ctx) :
    (∃ mirrors : List PeerId, mirrors.Nodup ∧
      (∀ p, p ∈ mirrors ↔ (∃ o, WasListed c p o (h :: past)) ∧
        ∃ q, h.peers.find? p = some q ∧ q.released = false) ∧
      ctx.registry.liveBytes = (mirrors.map h.ownedBytes).sum) ∧
    (∀ T W h₁ ctx₁ k p q, h.Moves T W h₁ → h₁.contexts.find? c = some ctx₁ →
      ctx₁.registry.peer? k = some p → h₁.peers.find? p = some q →
      (ctx₁.registry.dropContents q.backing).liveBytes + q.backing.ownedBytes =
        ctx₁.registry.liveBytes) ∧
    (ctx.reclaimer.pending = 0 →
      ctx.registry.liveBytes = (h.vectors.ids.map (h.slotBytes c)).sum +
        (h.strings.ids.map (h.copyBytes c)).sum ∧
      ∀ roots, (∀ r ∈ roots, h.has r = true) → h.dead roots = [] →
        (∀ v ∈ h.vectors.ids, h.Live roots (.vector v)) ∧
          ∀ s ∈ h.strings.ids, h.Live roots (.string s)) := by
  have I := run_intact (intact_of_supply supply) run
  have B := run_balanced run
  have M := run_metered run
  refine ⟨⟨ctx.registry.peers.values, nodup_values I B found, ?_, ?_⟩, ?_, fun drained => ⟨?_, ?_⟩⟩
  · exact mem_values_iff_unreleased B (run_recorded run) found
  · rw [M c ctx found, listedBytes_values]
  · intro T W h₁ ctx₁ k p q moves found₁ entry hq
    have covered := (moves.metered I B M).owned_le found₁ entry
    rw [ownedBytes_eq hq] at covered
    rw [liveBytes_dropContents]
    omega
  · exact liveBytes_of_drained I B M found drained
  · intro roots rooted buried
    constructor
    · intro v hv
      refine (isAlive_iff_live I rooted (o := .vector v) (buried ▸ List.not_mem_nil)).mp ?_
      exact (Store.contains_iff _ v).mpr ((h.vectors.mem_ids_iff v).mp hv)
    · intro s hs
      refine (isAlive_iff_live I rooted (o := .string s) (buried ▸ List.not_mem_nil)).mp ?_
      exact (Store.contains_iff _ s).mpr ((h.strings.mem_ids_iff s).mp hs)

/-- A vector of integers that was promoted and grew, beside a string with a native copy; and what is left
once the vector was dropped. -/
theorem live_bytes_after_growth :
    (∃ past h ctx, Run Distinct {} past h ∧ h.contexts.find? ⟨0⟩ = some ctx ∧
      ctx.registry.liveBytes = 5 * 4 + 2) ∧
    ∃ past h ctx, Run Distinct {} past h ∧ h.contexts.find? ⟨0⟩ = some ctx ∧
      ∃ mirrors : List PeerId, (∀ p, p ∈ mirrors ↔ (∃ o, WasListed ⟨0⟩ p o (h :: past)) ∧
        ∃ q, h.peers.find? p = some q ∧ q.released = false) ∧
      (mirrors.map h.ownedBytes).sum = 2 := by
  let h₁ : Heap := (Call.newContext .default).op.after {}
  let h₂ : Heap := (Call.newString ⟨0⟩ "a").op.after h₁
  let h₃ : Heap := (Call.newVector ⟨0⟩ .int [.int 1, .int 2, .int 3]).op.after h₂
  let h₄ : Heap := (Call.promote ⟨0⟩).op.after h₃
  let h₅ : Heap := (Call.materialize ⟨0⟩).op.after h₄
  let h₆ : Heap := (Call.setCapacity ⟨0⟩ 5).op.after h₅
  let h₇ : Heap := (h₆.bury (.vector ⟨0⟩)).work ⟨0⟩
  have run₃ : Run Distinct {} [h₂, h₁, {}] h₃ := by
    refine ((Run.start.step ?_).step ?_).step ?_
    · exact .answer (.newContext .default) ⟨by decide, by simp⟩ rfl
    · exact .answer (.newString ⟨0⟩ "a") ⟨by decide, by simp⟩ rfl
    · exact .answer (.newVector ⟨0⟩ .int [.int 1, .int 2, .int 3]) ⟨by decide +kernel, by simp⟩
        (Op.run_of_ok (by decide +kernel))
  have run₆ : Run Distinct {} [h₅, h₄, h₃, h₂, h₁, {}] h₆ := by
    refine ((run₃.step ?_).step ?_).step ?_
    · exact .answer (.promote ⟨0⟩) ⟨by decide +kernel, by simp⟩ (Op.run_of_ok (by decide +kernel))
    · exact .answer (.materialize ⟨0⟩) ⟨by decide +kernel, by simp⟩ (Op.run_of_ok (by decide +kernel))
    · exact .answer (.setCapacity ⟨0⟩ 5) ⟨by decide +kernel, by simp⟩
        (Op.run_of_ok (by decide +kernel))
  have run₇ : Run Distinct {} [h₆.bury (.vector ⟨0⟩), h₆, h₅, h₄, h₃, h₂, h₁, {}] h₇ :=
    (run₆.step (.bury [.context ⟨0⟩, .string ⟨0⟩] (.vector ⟨0⟩) (by decide +kernel))).step (.work ⟨0⟩)
  constructor
  · obtain ⟨ctx, found, idle⟩ : ∃ ctx, h₆.contexts.find? ⟨0⟩ = some ctx ∧ ctx.reclaimer.pending = 0 :=
      Option.map_eq_some_iff.mp (by decide +kernel)
    have counted := ((live_bytes_after_run run₆ found).2.2 idle).1
    exact ⟨_, h₆, ctx, run₆, found, counted.trans (by decide +kernel)⟩
  · obtain ⟨ctx, found⟩ := has_context_iff.mp (show h₇.has (.context ⟨0⟩) = true by decide +kernel)
    obtain ⟨⟨mirrors, _, mem, counted⟩, _⟩ := live_bytes_after_run run₇ found
    have left : h₇.liveBytes ⟨0⟩ = 2 := by decide +kernel
    rw [liveBytes_eq found, counted] at left
    exact ⟨_, h₇, ctx, run₇, found, mirrors, mem, left⟩

end Heap
end VectorHeap
