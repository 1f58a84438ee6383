import Mathlib.Logic.ExistsUnique
import VectorHeap.Proofs.ConfinedCalls
import VectorHeap.Proofs.DataAddress
import VectorHeap.Proofs.Heap.Enclosure
import VectorHeap.Proofs.Heap.Omission

/-! Parties that share a heap. Each works with contexts of its own and names only what was made for it. None
changes what another has, and the turns of the others may be left out of a run. -/
namespace VectorHeap

/-! ### Acts -/

/-- What a party may do: call, or anything that happens between calls. -/
inductive Act
  | call (call : Call)
  | bury (r : Ref)
  | work (c : ContextId)
  | shutdown (c : ContextId)
  | release (c : ContextId) (p : PeerId)
  | reclaim (c : ContextId) (p : PeerId)

namespace Act

def Answer : Act → Type
  | call k => k.Answer
  | release .. => Bool
  | _ => Unit

def op : (act : Act) → Op act.Answer
  | call k => k.ask
  | bury r => modify (·.bury r)
  | work c => modify (·.work c)
  | shutdown c => modify (·.shutdown c)
  | release c p => modifyGet (fun h => ((h.release c p).2, (h.release c p).1))
  | reclaim c p => modify (·.reclaim c p)

def names : Act → List Ref
  | call k => k.names
  | bury r => [r]
  | work c | shutdown c => [.context c]
  | release c p | reclaim c p => [.context c, .peer p]

def buffer? : Act → Option BufferId
  | call k => k.buffer?
  | _ => none

/-- An act that names nothing outside of a region. -/
structure Of (S : Region) (act : Act) : Prop where
  refs : ∀ r ∈ act.names, S.refs r
  buffers : ∀ b, act.buffer? = some b → S.buffers b

/-- Only the dead are buried, and only peers of dead objects are released or handed in. -/
def Admissible (h : Heap) : Act → Prop
  | call k => k.Admissible h
  | bury r => ∃ roots, r ∈ h.dead roots
  | work _ | shutdown _ => True
  | release _ p => h.Ownerless p
  | reclaim _ p => h.has (.peer p) = true ∧ h.Ownerless p

variable {S T : Region} {act : Act} {h h' g : Heap}

theorem Of.mono (own : act.Of S) (part : S.Inside T) : act.Of T :=
  ⟨fun r hr => part.refs r (own.refs r hr), fun b hb => part.buffers b (own.buffers b hb)⟩

theorem Of.confined (own : act.Of S) : Op.Confined S act.op (fun _ => True) := by
  have one : ∀ r, act.names = [r] → S.refs r := fun r e => own.refs r (e ▸ List.mem_singleton_self r)
  have two : ∀ r r', act.names = [r, r'] → S.refs r ∧ S.refs r' := fun r r' e =>
    ⟨own.refs r (e ▸ List.mem_cons_self),
      own.refs r' (e ▸ List.mem_cons_of_mem _ (List.mem_singleton_self r'))⟩
  cases act with
  | call k => exact k.ask_confined own.refs own.buffers
  | bury r => exact .modify (.bury (one _ rfl))
  | work c => exact .modify (.work (one _ rfl))
  | shutdown c => exact .modify (.shutdown (one _ rfl))
  | reclaim c p =>
    obtain ⟨context, peer⟩ := two _ _ rfl
    exact .modify (.reclaim context peer)
  | release c p =>
    obtain ⟨context, peer⟩ := two _ _ rfl
    have C := Heap.Steady.release context peer
    refine .modifyGet _ (fun h g M => ⟨?_, trivial, C.twinned M⟩)
      (fun g M supply => ⟨Prod.ext ?_ (C.plain g M supply), C.asked g M⟩)
    · exact (Heap.Steady.release_runs g c p).trans
        ((Heap.Steady.runs_matches M peer).trans (Heap.Steady.release_runs h c p).symm)
    · exact (Heap.Steady.release_runs _ c p).trans (Heap.Steady.release_runs g c p).symm

theorem given_inside {result : Except Fault act.Answer} (run : act.op h = Op.ended result h') :
    h.given.Inside h'.given := by
  have own : act.Of .whole := ⟨fun _ _ => trivial, fun _ _ => trivial⟩
  have all := Heap.matches_self h.whole_encloses (fun _ _ => trivial) (fun _ _ => trivial)
  obtain ⟨_, _, T⟩ := own.confined.ended all run
  exact T.left.given

theorem Admissible.ends {result : Except Fault act.Answer} (ok : act.Admissible h)
    (run : act.op h = Op.ended result h') :
    (∃ k answered, k.Admissible h ∧ h.Ended k h' answered) ∨ h.Tidies h' := by
  have moved : ∀ {β : Type} {k : Heap → β × Heap} {result : Except Fault β},
      (modifyGet k : Op β) h = Op.ended result h' → (k h).2 = h' := by
    intro β k result run
    cases result with
    | ok b => exact (EStateM.Result.ok.inj run).2
    | error f => cases run
  cases act with
  | call k =>
    refine .inl ⟨k, ?_⟩
    have run' := Call.op_of_ask run
    cases result with
    | ok a => exact ⟨true, ok, .answer run'⟩
    | error f => exact ⟨false, ok, .stop f run'⟩
  | bury r =>
    obtain ⟨roots, dead⟩ := ok
    exact .inr (moved run ▸ .bury roots r dead)
  | work c => exact .inr (moved run ▸ .work c)
  | shutdown c => exact .inr (moved run ▸ .shutdown c)
  | reclaim c p => exact .inr (moved run ▸ .reclaim c p ok.1 ok.2)
  | release c p => exact .inr (moved run ▸ .release c p ok)

theorem Admissible.intact {result : Except Fault act.Answer} (I : h.Intact) (ok : act.Admissible h)
    (run : act.op h = Op.ended result h') : h'.Intact := by
  rcases ok.ends run with ⟨k, answered, proper, E⟩ | tidied
  · exact Heap.step_intact I (E.step proper)
  · exact (tidied.sheds I).intact I

theorem Admissible.buffered {result : Except Fault act.Answer} (I : h.Intact) (B : h.Buffered)
    (ok : act.Admissible h) (run : act.op h = Op.ended result h') : h'.Buffered := by
  rcases ok.ends run with ⟨k, answered, proper, E⟩ | tidied
  · obtain ⟨h₁, posted, rfl | ⟨f, refused⟩⟩ := E.posted I
    · exact posted.buffered B
    · exact refused.buffered (posted.buffered B)
  · obtain ⟨P, cleared⟩ := tidied.cleared I
    exact cleared.buffered B

theorem Admissible.carry {F : Region} (M : h.Matches F.rest g) (L : g.Lacks F) (own : act.Of F.rest)
    (ok : act.Admissible h) : act.Admissible g := by
  have ownerless : ∀ {p}, F.rest.refs (.peer p) → h.Ownerless p → g.Ownerless p := by
    intro p peer dead q found
    have old := (M.peers.find peer).symm.trans found
    rw [M.isAlive (M.peers.closed p q peer old).owner]
    exact dead q old
  cases act with
  | call k =>
    refine ⟨fun r hr => ?_, ?_⟩
    · exact (M.has (own.refs r (Call.mem_names_of_mem_refs hr))).trans (ok.alive r hr)
    · rintro c type b length rfl
      rw [M.buffers.find (own.buffers b rfl)]
      exact ok.memory c type b length rfl
  | bury r =>
    obtain ⟨roots, dead⟩ := ok
    obtain ⟨there, unrooted, unheld, idle⟩ := Heap.mem_dead_iff.mp dead
    have named : F.rest.refs r := own.refs r (List.mem_singleton_self r)
    refine ⟨roots, Heap.mem_dead_iff.mpr ⟨(M.has named).trans there, unrooted, ?_, ?_⟩⟩
    · exact fun held => unheld (M.agrees.symm.refs L.encloses named held)
    · rintro c rfl
      rw [Heap.isIdle, M.contexts.find named]
      exact idle c rfl
  | work c => trivial
  | shutdown c => trivial
  | reclaim c p =>
    have peer : F.rest.refs (.peer p) := own.refs _ (List.mem_cons_of_mem _ (List.mem_singleton_self _))
    exact ⟨(M.has peer).trans ok.1, ownerless peer ok.2⟩
  | release c p => exact ownerless (own.refs _ (List.mem_cons_of_mem _ (List.mem_singleton_self _))) ok

end Act

/-! ### One turn -/

/-- A heap, and one that has nothing of a region but shows the same outside of it. -/
structure Severed (F : Region) (h g : Heap) : Prop where
  encloses : F.Encloses h
  agrees : h.Matches F.rest g
  lacks : g.Lacks F

section
variable {F S : Region} {h h' g : Heap} {act : Act} {result : Except Fault act.Answer}

/-- An act changes nothing outside of a closed region that all that it names is in. What it makes is closed
together with the region. -/
theorem Act.Admissible.changes_within (I : h.Intact) (B : h.Buffered) (E : S.Encloses h)
    (ok : act.Admissible h) (own : act.Of S) (run : act.op h = Op.ended result h') :
    h.Within (S.join h.given.rest) h' ∧ (S.join (h.made h')).Encloses h' ∧
      h.Same (S.join (h.made h')).rest h' := by
  have G := I.given_encloses B
  have G' := (ok.intact I run).given_encloses (ok.buffered I B run)
  -- The act may use what it names and what it makes.
  have ahead := Heap.matches_self (Heap.encloses_alike E G (h.alike_ahead S))
    (fun _ new => .inr new) (fun _ new => .inr new)
  have own' : act.Of (S.join h.given.rest) := own.mono ⟨fun _ => .inl, fun _ => .inl⟩
  obtain ⟨_, _, T⟩ := own'.confined.ended ahead run
  have before := Heap.encloses_alike E G (h.alike_made h' S)
  have after := Heap.encloses_alike T.matched.encloses G' (h.made_alike h' S)
  exact ⟨T.left, after, T.left.agrees.same before after⟩

namespace Severed

theorem start (supply : Nat → Nat → Option Address) : Severed .nothing { supply } { supply } where
  encloses := (Heap.lacks_nothing _).encloses
  agrees := Heap.matches_self (Heap.Lacks.encloses ⟨fun r _ => by cases r <;> rfl, fun _ _ => rfl⟩)
    (fun _ _ => not_false) (fun _ _ => not_false)
  lacks := Heap.lacks_nothing _

theorem aside (V : Severed F h g) (supply : Nat → Nat → Option Address) : Severed F h { g with supply } :=
  ⟨V.encloses, (V.agrees.aside h.supply supply ..).matched, ⟨V.lacks.refs, V.lacks.buffers⟩⟩

/-- What is done outside of the region can be done in the other heap as well, with the same result. -/
theorem again (V : Severed F h g) (own : act.Of F.rest) (run : act.op h = Op.ended result h') :
    ∃ g', Op.Replays act.op g result g' ∧ Severed F h' g' := by
  obtain ⟨g', P, T⟩ := own.confined.ended V.agrees run
  exact ⟨g', P, T.left.agrees_rest.encloses V.encloses, T.matched, T.right.agrees_rest.lacks V.lacks⟩

/-- What is done in the region is left out. What it makes is of the region. -/
theorem skipped (V : Severed F h g) (I : h.Intact) (B : h.Buffered) (ok : act.Admissible h)
    (own : act.Of F) (run : act.op h = Op.ended result h') :
    Severed (F.join (h.made h')) h' (g.passing h') := by
  obtain ⟨W, closed, _⟩ := ok.changes_within I B V.encloses own run
  exact ⟨closed, V.agrees.passing V.lacks (I.given_encloses B) W, V.lacks.passing V.agrees h'⟩

end Severed
end

/-! ### Runs -/

structure Turn (ι : Type) where
  party : ι
  act : Act
  result : Except Fault act.Answer
  before : Heap
  after : Heap

section
variable {ι : Type} {log : List (Turn ι)} {who : ι → Prop}

def Region.madeIn (log : List (Turn ι)) (who : ι → Prop) : Region where
  refs r := ∃ t ∈ log, who t.party ∧ (t.before.made t.after).refs r
  buffers b := ∃ t ∈ log, who t.party ∧ (t.before.made t.after).buffers b

namespace Region

/-- What was made in the turns of one party, and what in those of the others. -/
def madeBy (log : List (Turn ι)) (party : ι) : Region := madeIn log (· = party)

def madeByOthers (log : List (Turn ι)) (party : ι) : Region := madeIn log (· ≠ party)

instance [DecidableEq ι] (log : List (Turn ι)) (party : ι) (r : Ref) :
    Decidable ((madeBy log party).refs r) :=
  inferInstanceAs (Decidable (∃ t ∈ log, t.party = party ∧ (t.before.made t.after).refs r))

theorem madeIn_cons_of {t : Turn ι} (mine : who t.party) :
    madeIn (t :: log) who = (madeIn log who).join (t.before.made t.after) := by
  ext x <;> simp [madeIn, join, mine, or_comm]

theorem madeIn_cons_of_not {t : Turn ι} (other : ¬ who t.party) :
    madeIn (t :: log) who = madeIn log who := by
  ext x <;> simp [madeIn, other]

theorem madeByOthers_nil (party : ι) : madeByOthers [] party = nothing := by
  ext x <;> simp [madeByOthers, madeIn, nothing]

theorem madeByOthers_cons_of_eq {t : Turn ι} {party : ι} (own : t.party = party) :
    madeByOthers (t :: log) party = madeByOthers log party := madeIn_cons_of_not (not_not_intro own)

theorem madeByOthers_cons_of_ne {t : Turn ι} {party : ι} (other : t.party ≠ party) :
    madeByOthers (t :: log) party = (madeByOthers log party).join (t.before.made t.after) :=
  madeIn_cons_of other

theorem madeByOthers_of_ne {party other : ι} (ne : other ≠ party) :
    (madeBy log other).Inside (madeByOthers log party) where
  refs _ := fun ⟨t, taken, same, made⟩ => ⟨t, taken, fun own => ne (same.symm.trans own), made⟩
  buffers _ := fun ⟨t, taken, same, made⟩ => ⟨t, taken, fun own => ne (same.symm.trans own), made⟩

end Region

/-- Turns that parties took, the last one first. Each names only what was made in turns of its own. -/
inductive Taken (h₀ : Heap) : List (Turn ι) → Heap → Prop
  | start : Taken h₀ [] h₀
  | turn {log : List (Turn ι)} {h h' : Heap} (run : Taken h₀ log h) (party : ι) (act : Act)
      (ok : act.Admissible h) (own : act.Of (.madeBy log party)) (result : Except Fault act.Answer)
      (ended : act.op h = Op.ended result h') : Taken h₀ (⟨party, act, result, h, h'⟩ :: log) h'

/-- The turns of one party are taken again, each with the same result. Those of the others are left out, and
the identities that they used are passed over. -/
inductive Without (kept : ι) (g₀ : Heap) : List (Turn ι) → Heap → Prop
  | start : Without kept g₀ [] g₀
  | again {log : List (Turn ι)} {t : Turn ι} {g g' : Heap} (run : Without kept g₀ log g)
      (own : t.party = kept) (ok : t.act.Admissible g) (ended : t.act.op g = Op.ended t.result g') :
      Without kept g₀ (t :: log) g'
  | skipped {log : List (Turn ι)} {t : Turn ι} {g : Heap} (run : Without kept g₀ log g)
      (other : t.party ≠ kept) : Without kept g₀ (t :: log) (g.passing t.after)

namespace Region

theorem madeIn_inside_cons (t : Turn ι) : (madeIn log who).Inside (madeIn (t :: log) who) where
  refs _ := fun ⟨s, taken, made⟩ => ⟨s, List.mem_cons_of_mem t taken, made⟩
  buffers _ := fun ⟨s, taken, made⟩ => ⟨s, List.mem_cons_of_mem t taken, made⟩

end Region

namespace Taken

variable {supply : Nat → Nat → Option Address} {h : Heap}

theorem intact (run : Taken { supply } log h) : h.Intact := by
  induction run with
  | start => exact Heap.intact_of_supply supply
  | turn run party act ok own result ended ih => exact ok.intact ih ended

theorem buffered (run : Taken { supply } log h) : h.Buffered := by
  induction run with
  | start => exact fun _ _ _ _ found => absurd found (by simp)
  | turn run party act ok own result ended ih => exact ok.buffered run.intact ih ended

theorem given_eq (run : Taken { supply } log h) : h.given = .madeIn log (fun _ => True) := by
  induction run with
  | start =>
    ext x
    · cases x <;> simp [Region.madeIn, Heap.given, Store.given, Store.empty]
    · simp [Region.madeIn, Heap.given, Store.given, Store.empty]
  | @turn log h h' run party act ok own result ended ih =>
    rw [Region.madeIn_cons_of trivial, ← ih]
    have older := Act.given_inside ended
    ext x
    · exact ⟨fun new => (Classical.em _).imp_right (fun never => ⟨new, never⟩),
        fun either => either.elim (older.refs x) And.left⟩
    · exact ⟨fun new => (Classical.em _).imp_right (fun never => ⟨new, never⟩),
        fun either => either.elim (older.buffers x) And.left⟩

theorem madeIn_inside_given (run : Taken { supply } log h) (who : ι → Prop) :
    (Region.madeIn log who).Inside h.given := by
  rw [run.given_eq]
  exact ⟨fun _ ⟨t, taken, _, made⟩ => ⟨t, taken, trivial, made⟩,
    fun _ ⟨t, taken, _, made⟩ => ⟨t, taken, trivial, made⟩⟩

theorem apart (run : Taken { supply } log h) {others : ι → Prop} (disjoint : ∀ i, who i → ¬ others i) :
    (Region.madeIn log who).Inside (Region.madeIn log others).rest := by
  induction run with
  | start => exact ⟨fun _ ⟨_, taken, _⟩ => (nomatch taken), fun _ ⟨_, taken, _⟩ => (nomatch taken)⟩
  | @turn log h h' run party act ok own result ended ih =>
    by_cases mine : who party
    · have old := run.madeIn_inside_given others
      rw [Region.madeIn_cons_of mine, Region.madeIn_cons_of_not (disjoint party mine)]
      exact ⟨fun r made => made.elim (ih.refs r) (fun new before => new.2 (old.refs r before)),
        fun b made => made.elim (ih.buffers b) (fun new before => new.2 (old.buffers b before))⟩
    rw [Region.madeIn_cons_of_not mine]
    by_cases theirs : others party
    · have old := run.madeIn_inside_given who
      rw [Region.madeIn_cons_of theirs]
      exact ⟨fun r made other => other.elim (ih.refs r made) (fun new => new.2 (old.refs r made)),
        fun b made other => other.elim (ih.buffers b made) (fun new => new.2 (old.buffers b made))⟩
    · rw [Region.madeIn_cons_of_not theirs]
      exact ih

/-- The other heap of a run is what the turns of one party come to, for any allocator that likes certain
addresses when it is asked. -/
def Replayed (kept : ι) (log : List (Turn ι)) (g : Heap) : Prop :=
  ∃ liked : Nat → Nat → Option Address, ∀ supply, (∀ i < g.allocations, supply i = liked i) →
    Without kept { supply } log { g with supply }

theorem madeBy_apart (run : Taken { supply } log h) (party : ι) :
    (Region.madeBy log party).Inside (Region.madeByOthers log party).rest :=
  run.apart (fun _ own other => other own)

/-- Without the turns of the others a party can do the same, and what it has is the same. -/
theorem severed (run : Taken { supply } log h) (kept : ι) :
    ∃ g, Severed (.madeByOthers log kept) h g ∧ Replayed kept log g := by
  induction run with
  | start =>
    rw [Region.madeByOthers_nil]
    exact ⟨{ supply }, .start supply, supply, fun _ _ => .start⟩
  | @turn log h h' run party act ok own result ended ih =>
    obtain ⟨g, V, liked, again⟩ := ih
    by_cases mine : party = kept
    · subst mine
      have own' := own.mono (run.madeBy_apart party)
      rw [Region.madeByOthers_cons_of_eq rfl]
      obtain ⟨g', ⟨more, liked', rerun⟩, V'⟩ := V.again own' ended
      -- Up to the act the allocator is asked what it was asked before, and then what the act asks.
      refine ⟨g', V', fun i => if i < g.allocations then liked i else liked' i, fun supply agrees => ?_⟩
      have before := again supply (fun i low => (agrees i (Nat.lt_of_lt_of_le low more)).trans (if_pos low))
      have last := rerun supply (fun i low high => (agrees i high).trans (if_neg (Nat.not_lt.mpr low)))
      exact .again before rfl (ok.carry (V.aside supply).agrees (V.aside supply).lacks own') last
    · rw [Region.madeByOthers_cons_of_ne mine]
      exact ⟨_, V.skipped run.intact run.buffered ok (own.mono (Region.madeByOthers_of_ne mine)) ended, liked,
        fun supply agrees => .skipped (again supply agrees) mine⟩

theorem changes_within (run : Taken { supply } log h) {t : Turn ι} (taken : t ∈ log) {S : Region}
    (E : S.Encloses t.before) (own : t.act.Of S) :
    t.before.Same (S.join (t.before.made t.after)).rest t.after := by
  induction run with
  | start => cases taken
  | turn run party act ok own' result ended ih =>
    rcases List.mem_cons.mp taken with rfl | earlier
    · exact (ok.changes_within run.intact run.buffered E own ended).2.2
    · exact ih earlier

theorem unchanged (run : Taken { supply } log h) {kept : ι} {t : Turn ι} (taken : t ∈ log)
    (other : t.party ≠ kept) : t.before.Same (Region.madeByOthers log kept).rest t.after := by
  induction run with
  | start => cases taken
  | @turn log h h' run party act ok own result ended ih =>
    rcases List.mem_cons.mp taken with rfl | earlier
    · obtain ⟨g, V, _⟩ := run.severed kept
      have own' := own.mono (Region.madeByOthers_of_ne other)
      rw [Region.madeByOthers_cons_of_ne other]
      exact (ok.changes_within run.intact run.buffered V.encloses own' ended).2.2
    · have more : (Region.madeByOthers log kept).Inside _ :=
        Region.madeIn_inside_cons ⟨party, act, result, h, h'⟩
      exact (ih earlier).mono ⟨fun r never own => never (more.refs r own),
        fun b never own => never (more.buffers b own)⟩

/-- All that was given out some party made, and only one. -/
theorem madeBy_iff (run : Taken { supply } log h) {party : ι} {r : Ref} (given : h.given.refs r) :
    (Region.madeBy log party).refs r ↔ ¬ (Region.madeByOthers log party).refs r := by
  refine ⟨(run.madeBy_apart party).refs r, fun never => ?_⟩
  rw [run.given_eq] at given
  obtain ⟨t, taken, _, made⟩ := given
  by_cases own : t.party = party
  · exact ⟨t, taken, own, made⟩
  · exact absurd ⟨t, taken, own, made⟩ never

theorem exists_unique_party (run : Taken { supply } log h) {r : Ref} (there : h.has r = true) :
    ∃! i, (Region.madeBy log i).refs r := by
  have given := Heap.given_of_has there
  rw [run.given_eq] at given
  obtain ⟨t, taken, _, made⟩ := given
  have own : (Region.madeBy log t.party).refs r := ⟨t, taken, rfl, made⟩
  refine ⟨t.party, own, fun j other => Classical.byContradiction (fun ne => ?_)⟩
  exact (run.madeBy_apart t.party).refs r own ((Region.madeByOthers_of_ne ne).refs r other)

theorem madeBy_contextOf (run : Taken { supply } log h) {o : Object} {c : ContextId}
    (context : h.contextOf? o = some c) (party : ι) :
    (Region.madeBy log party).refs (.ofObject o) ↔ (Region.madeBy log party).refs (.context c) := by
  obtain ⟨g, V, _⟩ := run.severed party
  have given := Heap.given_of_has ((Heap.has_ofObject o).trans (Heap.isAlive_iff_contextOf.mpr ⟨c, context⟩))
  have given' := Heap.contextOf_encloses (run.intact.given_encloses run.buffered) context given
  rw [run.madeBy_iff given, run.madeBy_iff given']
  exact ⟨Heap.contextOf_encloses V.agrees.encloses context,
    fun never own => never (Heap.contextOf_encloses V.encloses context own)⟩

end Taken

/-- A turn changes nothing outside of what can be reached from what it names. Where parties name only what
was made for them, each party leaves what another has as it is, and without the turns of the others a party
gets the same answers and ends up with the same. -/
theorem isolated_after_run {supply : Nat → Nat → Option Address} {h : Heap} (run : Taken { supply } log h) :
    (∀ t ∈ log, ∀ S : Region, S.Encloses t.before → t.act.Of S →
      t.before.Same (S.join (t.before.made t.after)).rest t.after) ∧
    (∀ r, h.has r = true → ∃! party, (Region.madeBy log party).refs r) ∧
    (∀ o c, h.contextOf? o = some c → ∀ party,
      ((Region.madeBy log party).refs (.ofObject o) ↔ (Region.madeBy log party).refs (.context c))) ∧
    ∀ kept, (∀ t ∈ log, t.party ≠ kept → t.before.Same (.madeBy log kept) t.after) ∧
      ∃ supply' g, Without kept { supply := supply' } log g ∧ h.Same (.madeBy log kept) g := by
  refine ⟨fun t taken S E own => run.changes_within taken E own, fun r there => run.exists_unique_party there,
    fun o c context => run.madeBy_contextOf context, fun kept => ⟨fun t taken other => ?_, ?_⟩⟩
  · exact (run.unchanged taken other).mono (run.madeBy_apart kept)
  · obtain ⟨g, V, liked, again⟩ := run.severed kept
    have V' := V.aside liked
    exact ⟨liked, _, again liked (fun _ _ => rfl),
      (V'.agrees.agrees.same V'.encloses V'.lacks.encloses).mono (run.madeBy_apart kept)⟩

end

/-- One party makes a string and buries it again. Another has a vector with a handle, and has it as well if
all of that is left out. -/
theorem isolated_after_burial :
    ∃ (log : List (Turn Bool)) (h : Heap) (supply : Nat → Nat → Option Address) (g : Heap),
      Taken {} log h ∧ (∃ t ∈ log, t.party = false ∧ t.act = .bury (.string ⟨0⟩)) ∧
      Without true { supply } log g ∧ (g.vectors.find? ⟨0⟩).map (·.peer) = some (some ⟨1⟩) := by
  let h₁ : Heap := (Act.call (.newContext .default)).op.after {}
  let h₂ : Heap := (Act.call (.newContext .default)).op.after h₁
  let h₃ : Heap := (Act.call (.newString ⟨0⟩ "a")).op.after h₂
  let h₄ : Heap := (Act.call (.newVector ⟨1⟩ .int [.int 1])).op.after h₃
  let h₅ : Heap := (Act.call (.ensureHandle (.string ⟨0⟩))).op.after h₄
  let h₆ : Heap := (Act.call (.ensureHandle (.vector ⟨0⟩))).op.after h₅
  let h₇ : Heap := h₆.bury (.string ⟨0⟩)
  let t₁ : Turn Bool := ⟨false, .call (.newContext .default), .ok (⟨0⟩ : ContextId), {}, h₁⟩
  let t₂ : Turn Bool := ⟨true, .call (.newContext .default), .ok (⟨1⟩ : ContextId), h₁, h₂⟩
  let t₃ : Turn Bool := ⟨false, .call (.newString ⟨0⟩ "a"), .ok (⟨0⟩ : StringId), h₂, h₃⟩
  let t₄ : Turn Bool := ⟨true, .call (.newVector ⟨1⟩ .int [.int 1]), .ok (⟨0⟩ : VectorId), h₃, h₄⟩
  let k : Handle := ⟨0x0DEF000000000001⟩
  let t₅ : Turn Bool := ⟨false, .call (.ensureHandle (.string ⟨0⟩)), .ok k, h₄, h₅⟩
  let t₆ : Turn Bool := ⟨true, .call (.ensureHandle (.vector ⟨0⟩)), .ok k, h₅, h₆⟩
  let t₇ : Turn Bool := ⟨false, .bury (.string ⟨0⟩), .ok (), h₆, h₇⟩
  have run₁ : Taken {} [t₁] h₁ := Taken.start.turn false (.call (.newContext .default))
    ⟨by decide, by simp⟩ ⟨by decide, nofun⟩ (.ok _) rfl
  have run₂ : Taken {} [t₂, t₁] h₂ := run₁.turn true (.call (.newContext .default))
    ⟨by decide, by simp⟩ ⟨by decide, nofun⟩ (.ok _) rfl
  have run₃ : Taken {} [t₃, t₂, t₁] h₃ := run₂.turn false (.call (.newString ⟨0⟩ "a"))
    ⟨by decide +kernel, by simp⟩ ⟨by decide +kernel, nofun⟩ (.ok _) rfl
  have run₄ : Taken {} [t₄, t₃, t₂, t₁] h₄ := run₃.turn true (.call (.newVector ⟨1⟩ .int [.int 1]))
    ⟨by decide +kernel, by simp⟩ ⟨by decide +kernel, nofun⟩ (.ok _) rfl
  have run₅ : Taken {} [t₅, t₄, t₃, t₂, t₁] h₅ := run₄.turn false (.call (.ensureHandle (.string ⟨0⟩)))
    ⟨by decide +kernel, by simp⟩ ⟨by decide +kernel, nofun⟩ (.ok _)
    (@Op.run_of_ok Handle (Op.ensureHandle (.string ⟨0⟩)) h₄ _ (by decide +kernel))
  have run₆ : Taken {} [t₆, t₅, t₄, t₃, t₂, t₁] h₆ := run₅.turn true (.call (.ensureHandle (.vector ⟨0⟩)))
    ⟨by decide +kernel, by simp⟩ ⟨by decide +kernel, nofun⟩ (.ok _)
    (@Op.run_of_ok Handle (Op.ensureHandle (.vector ⟨0⟩)) h₅ _ (by decide +kernel))
  have run₇ : Taken {} [t₇, t₆, t₅, t₄, t₃, t₂, t₁] h₇ := run₆.turn false (.bury (.string ⟨0⟩))
    ⟨[.context ⟨0⟩, .context ⟨1⟩, .vector ⟨0⟩], by decide +kernel⟩ ⟨by decide +kernel, nofun⟩ (.ok _) rfl
  obtain ⟨-, -, -, apart⟩ := isolated_after_run run₇
  obtain ⟨-, supply, g, again, same⟩ := apart true
  have own : (Region.madeBy [t₇, t₆, t₅, t₄, t₃, t₂, t₁] true).refs (.vector ⟨0⟩) := by decide +kernel
  have kept : (h₇.vectors.find? ⟨0⟩).map (·.peer) = some (some ⟨1⟩) := by decide +kernel
  refine ⟨_, h₇, supply, g, run₇, ⟨t₇, List.mem_cons_self, rfl, rfl⟩, again, ?_⟩
  rw [same.vectors ⟨0⟩ own]
  exact kept

/-- Some vector of a context stores an object of another. -/
def Heap.stores (h : Heap) (c c' : ContextId) : Bool :=
  h.vectors.values.any (fun cell => cell.context = c &&
    (cell.buffer.toList.flatMap Op.bufferObjects ++
      ((cell.peer.bind h.peers.find?).map (·.pins)).getD []).any (fun o => h.contextOf? o = some c'))

/-- A list stores a list of another context, which stores a vector of a third. Once it is dropped the third
context has lost an entry, although neither the first nor the third ever stored an object of the other. -/
theorem drop_reaches_past_context :
    ∃ past h, Run (fun _ => False) {} past h ∧
      (∀ g ∈ h :: past, g.stores ⟨0⟩ ⟨1⟩ = false ∧ g.stores ⟨1⟩ ⟨0⟩ = false) ∧
      h.contextOf? (.vector ⟨2⟩) = some ⟨0⟩ ∧
      h.dead [.context ⟨0⟩, .context ⟨1⟩, .context ⟨2⟩, .vector ⟨2⟩] = [] ∧
      (h.contexts.find? ⟨1⟩).map (·.registry.peers.keys) = some [⟨0x0DEF000000000001⟩] ∧
      ((h.settle [.context ⟨0⟩, .context ⟨1⟩, .context ⟨2⟩]).contexts.find? ⟨1⟩).map
        (·.registry.peers.keys) = some [] := by
  let h₁ : Heap := (Call.newContext .default).op.after {}
  let h₂ : Heap := (Call.newContext .default).op.after h₁
  let h₃ : Heap := (Call.newContext .default).op.after h₂
  let h₄ : Heap := (Call.newVector ⟨1⟩ .int [.int 1]).op.after h₃
  let h₅ : Heap := (Call.ensureHandle (.vector ⟨0⟩)).op.after h₄
  let h₆ : Heap := (Call.newVector ⟨2⟩ .list [.list ⟨0⟩]).op.after h₅
  let h₇ : Heap := (Call.newVector ⟨0⟩ .list [.list ⟨1⟩]).op.after h₆
  have run : Run (fun _ => False) {} [h₆, h₅, h₄, h₃, h₂, h₁, {}] h₇ := by
    refine ((((((Run.start.step ?_).step ?_).step ?_).step ?_).step ?_).step ?_).step ?_
    · exact .answer (.newContext .default) ⟨by decide, by simp⟩ rfl
    · exact .answer (.newContext .default) ⟨by decide, by simp⟩ rfl
    · exact .answer (.newContext .default) ⟨by decide, by simp⟩ rfl
    · exact .answer (.newVector ⟨1⟩ .int [.int 1]) ⟨by decide +kernel, by simp⟩
        (Op.run_of_ok (by decide +kernel))
    · exact .answer (.ensureHandle (.vector ⟨0⟩)) ⟨by decide +kernel, by simp⟩
        (Op.run_of_ok (by decide +kernel))
    · exact .answer (.newVector ⟨2⟩ .list [.list ⟨0⟩]) ⟨by decide +kernel, by simp⟩
        (Op.run_of_ok (by decide +kernel))
    · exact .answer (.newVector ⟨0⟩ .list [.list ⟨1⟩]) ⟨by decide +kernel, by simp⟩
        (Op.run_of_ok (by decide +kernel))
  exact ⟨_, h₇, run, by decide +kernel, by decide +kernel, by decide +kernel, by decide +kernel,
    by decide +kernel⟩

end VectorHeap
