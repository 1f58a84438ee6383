import VectorHeap.Proofs.Nesting

/-! What two roots reach, and who may write there in place. Vectors that both reach are shared, or
behind something that is. A side owns a vector that nobody shares and that only its own vectors hold;
it comes to own more by copying. -/
namespace VectorHeap

/-- A list and its copy, and what becomes of them by writing. -/
inductive Side
  | original | copy
deriving DecidableEq

open Op

/-- The vectors that two roots reach, and for some of them the side that alone reaches them. -/
structure Zone where
  has : VectorId → Prop
  owner : VectorId → Option Side

namespace Zone

variable {z z' z'' : Zone} {v x : VectorId} {σ : Side}

def add (z : Zone) (d : VectorId) : Zone := { z with has := fun x => z.has x ∨ x = d }

def claim (z : Zone) (v : VectorId) (σ : Side) : Zone :=
  { z with owner := fun x => if x = v then some σ else z.owner x }

theorem owner_claim (z : Zone) (v : VectorId) (σ : Side) (x : VectorId) :
    (z.claim v σ).owner x = if x = v then some σ else z.owner x := rfl

def cut (z : Zone) (h : Heap) : Zone where
  has x := z.has x ∧ h.has (.vector x) = true
  owner x := if h.has (.vector x) then z.owner x else none

theorem owner_cut (z : Zone) (h : Heap) (x : VectorId) :
    (z.cut h).owner x = if h.has (.vector x) then z.owner x else none := rfl

def Extends (z z' : Zone) : Prop := ∀ x, z.has x → z'.has x ∧ z'.owner x = z.owner x

theorem Extends.trans (first : z.Extends z') (last : z'.Extends z'') : z.Extends z'' := by
  intro x here
  obtain ⟨here', owner⟩ := first x here
  obtain ⟨here'', owner'⟩ := last x here'
  exact ⟨here'', owner'.trans owner⟩

end Zone

namespace Heap

variable {h h' h'' : Heap} {c : ContextId} {z z' z'' : Zone} {σ τ : Side} {v w x y : VectorId}
  {s : Sequence} {e : Elem}

/-! ### Vectors that show the same -/

/-- A vector shows what it showed, though it may be shared more. -/
def Alike (h : Heap) (x : VectorId) (h' : Heap) : Prop :=
  ∃ s state, h.sequence? x = some s ∧ s.sharing ≤ state ∧
    h'.sequence? x = some { s with sharing := state }

theorem alike_of_same (shows : h.sequence? x = some s) (same : h'.sequence? x = some s) :
    h.Alike x h' := ⟨s, s.sharing, shows, s.sharing.le_refl, same⟩

theorem Alike.trans (first : h.Alike x h') (last : h'.Alike x h'') : h.Alike x h'' := by
  obtain ⟨s, state, shows, more, shows'⟩ := first
  obtain ⟨s', state', same, more', shows''⟩ := last
  cases shows'.symm.trans same
  exact ⟨s, state', shows, SharingState.le_trans more more', shows''⟩

theorem Alike.child (A : h.Alike x h') (y : VectorId) : h'.Child x y ↔ h.Child x y := by
  obtain ⟨s, state, shows, _, shows'⟩ := A
  constructor
  · rintro ⟨s', same, mem⟩
    cases shows'.symm.trans same
    exact ⟨s, shows, mem⟩
  · rintro ⟨s', same, mem⟩
    cases shows.symm.trans same
    exact ⟨_, shows', mem⟩

theorem Alike.isShared (A : h.Alike x h') (shared : h.IsShared x) : h'.IsShared x := by
  obtain ⟨s, state, shows, more, shows'⟩ := A
  obtain ⟨s', same, full⟩ := shared
  cases shows.symm.trans same
  rw [full] at more
  exact ⟨_, shows', SharingState.eq_shared more⟩

theorem Shares.alike (S : h.Shares h') (shows : h.sequence? x = some s) : h.Alike x h' := by
  obtain ⟨state, more, leaves⟩ := S x s shows
  exact ⟨s, state, shows, more, leaves.1⟩

theorem Local.later (L : h.Local c x) (A : h.Alike x h')
    (managed : h.isManaged x = true → h'.isManaged x = true)
    (contexts : ∀ o, h.contextOf? o = some c → h'.isAlive o = true → h'.contextOf? o = some c)
    (I' : h'.Intact) : h'.Local c x := by
  obtain ⟨s, state, shows, _, shows'⟩ := A
  obtain ⟨cell', found', shown⟩ := sequence_eq_some_iff.mp shows'
  refine ⟨contexts _ L.context ((Store.contains_iff _ x).mpr ⟨cell', found'⟩), fun native s' same => ?_⟩
  cases shows'.symm.trans same
  have before : h.isManaged x = false :=
    Bool.eq_false_iff.mpr (fun there => absurd ((managed there).symm.trans native) (by decide))
  intro e he o ho
  refine contexts o (L.own before s shows e he o ho) (I'.alive_of_mem found' (e := e) ?_ ho)
  have slots : h'.elements cell' = s.slots := congrArg Sequence.slots shown
  exact slots.symm ▸ List.mem_of_mem_take he

/-! ### Zones -/

/-- A vector that may be written in place: nobody shares it, nothing foreign is behind it, and it is
managed unless it is a list. -/
structure Private (h : Heap) (v : VectorId) (s : Sequence) : Prop where
  shows : h.sequence? v = some s
  unshared : s.sharing.isShared = false
  placed : h.isManaged v = true ∨ s.type = .list
  domestic : h.foreign? v = none

/-- What is owned is held only by what the same side owns, and holds only that or what is shared. -/
structure Zoned (h : Heap) (c : ContextId) (z : Zone) : Prop where
  intact : h.Intact
  names : h.NamesIn c
  here : ∀ x, z.has x → h.Local c x
  closed : ∀ y x, z.has y → h.Child y x → z.has x
  up : ∀ y x σ, z.has y → h.Child y x → z.owner x = some σ → z.owner y = some σ
  down : ∀ y x σ, z.owner y = some σ → h.Child y x → z.owner x = some σ ∨ h.IsShared x
  owned : ∀ x σ, z.owner x = some σ → z.has x ∧ ∃ s, h.Private x s

theorem Private.not_shared (P : h.Private v s) : ¬ h.IsShared v := by
  rintro ⟨s', same, full⟩
  cases P.shows.symm.trans same
  have unshared := P.unshared
  rw [full] at unshared
  exact absurd unshared (by decide)

theorem Zoned.unowned (Z : h.Zoned c z) (shared : h.IsShared x) : z.owner x = none := by
  cases own : z.owner x with
  | none => rfl
  | some σ =>
    obtain ⟨_, s, P⟩ := Z.owned x σ own
    exact absurd shared P.not_shared

theorem Zoned.alike (Z : h.Zoned c z) (S : h.Shares h') (there : z.has x) : h.Alike x h' := by
  obtain ⟨s, shows⟩ := (Z.here x there).sequence
  exact S.alike shows

/-- A side takes over a vector that nothing in the zone holds, and that holds only what is shared. -/
theorem Zoned.claim (Z : h.Zoned c z) (here : z.has v) (P : h.Private v s)
    (unheld : ∀ y, z.has y → ¬ h.Child y v) (marked : ∀ u, h.Child v u → h.IsShared u) (σ : Side) :
    h.Zoned c (z.claim v σ) where
  intact := Z.intact
  names := Z.names
  here := Z.here
  closed := Z.closed
  up y x τ there child own := by
    have other : x ≠ v := fun same => unheld y there (same ▸ child)
    rw [Zone.owner_claim, if_neg other] at own
    by_cases same : y = v
    · rw [Z.unowned (marked x (same ▸ child))] at own
      cases own
    · rw [Zone.owner_claim, if_neg same]
      exact Z.up y x τ there child own
  down y x τ own child := by
    by_cases same : y = v
    · exact .inr (marked x (same ▸ child))
    · rw [Zone.owner_claim, if_neg same] at own
      have other : x ≠ v := fun same => unheld y (Z.owned y τ own).1 (same ▸ child)
      rw [Zone.owner_claim, if_neg other]
      exact Z.down y x τ own child
  owned x τ own := by
    by_cases same : x = v
    · subst same
      exact ⟨here, s, P⟩
    · rw [Zone.owner_claim, if_neg same] at own
      exact Z.owned x τ own

/-- A copy joins the zone. What is owned is not among what it marks. -/
theorem Zoned.copied {d : VectorId} (Z : h.Zoned c z) (here : z.has v)
    (shows : h.sequence? v = some s) (C : h.Copied c s d h')
    (bare : ∀ x, h.Child v x → z.owner x = none) : h'.Zoned c (z.add d) := by
  obtain ⟨complete, made⟩ := C.made
  have I' := C.moves.intact Z.intact
  have alike : ∀ x, z.has x → h.Alike x h' := fun x => Z.alike C.shares
  have kids : ∀ x, h'.Child d x → h.Child v x := fun x child => ⟨s, shows, C.of_child child⟩
  refine
    { intact := I', names := C.moves.namesIn Z.intact Z.names, here := ?_, closed := ?_, up := ?_,
      down := ?_, owned := ?_ }
  · rintro x (there | rfl)
    · exact (Z.here x there).later (alike x there) (C.resident x)
        (fun o own _ => C.moves.contextOf Z.intact own) I'
    · exact ⟨made.own, fun native => absurd (C.managed.symm.trans native) (by decide)⟩
  · rintro y x (there | rfl) child
    · exact .inl (Z.closed y x there (((alike y there).child x).mp child))
    · exact .inl (Z.closed v x here (kids x child))
  · rintro y x σ (there | rfl) child own
    · exact Z.up y x σ there (((alike y there).child x).mp child) own
    · exact absurd ((bare x (kids x child)).symm.trans own) (by simp)
  · intro y x σ own child
    have there := (Z.owned y σ own).1
    exact (Z.down y x σ own (((alike y there).child x).mp child)).imp_right C.shares.isShared
  · intro x σ own
    obtain ⟨there, t, P⟩ := Z.owned x σ own
    have apart : .list x ∉ s.elements := fun mem =>
      absurd ((bare x ⟨s, shows, mem⟩).symm.trans own) (by simp)
    obtain ⟨same, foreign⟩ := C.moves.untouched Z.intact apart (fun _ _ => id) P.shows
    exact ⟨.inl there, t, same, P.unshared, P.placed.imp_left (C.resident x),
      foreign.trans P.domestic⟩

/-! ### Steps of one side -/

/-- One side goes on. The zone may grow, and what the side does not own shows what it showed. -/
structure Leads (c : ContextId) (σ : Side) (z : Zone) (h : Heap) (z' : Zone) (h' : Heap) : Prop where
  zoned : h'.Zoned c z'
  grows : z.Extends z'
  keeps : ∀ x, z.has x → z.owner x ≠ some σ → h.Alike x h'

theorem Zoned.refl (Z : h.Zoned c z) (σ : Side) : Leads c σ z h z h where
  zoned := Z
  grows _ there := ⟨there, rfl⟩
  keeps x there _ := by
    obtain ⟨s, shows⟩ := (Z.here x there).sequence
    exact alike_of_same shows shows

theorem Leads.trans (first : Leads c σ z h z' h') (last : Leads c σ z' h' z'' h'') :
    Leads c σ z h z'' h'' where
  zoned := last.zoned
  grows := first.grows.trans last.grows
  keeps x there other := by
    obtain ⟨there', owner⟩ := first.grows x there
    exact (first.keeps x there other).trans (last.keeps x there' (owner ▸ other))

theorem Zoned.leads_copy {d : VectorId} (Z : h.Zoned c z) (here : z.has v)
    (shows : h.sequence? v = some s) (C : h.Copied c s d h')
    (bare : ∀ x, h.Child v x → z.owner x = none) (σ : Side) :
    Leads c σ z h ((z.add d).claim d σ) h' := by
  obtain ⟨complete, made⟩ := C.made
  have fresh : ∀ x, z.has x → x ≠ d := fun x there => (Z.here x there).ne_copy C
  have alike : ∀ x, z.has x → h.Alike x h' := fun x => Z.alike C.shares
  have marked : ∀ u, h'.Child d u → h'.IsShared u := fun u child =>
    C.marked u (C.of_child child)
  -- Whatever the copy holds was there before it.
  have unheld : ∀ y, (z.add d).has y → ¬ h'.Child y d := by
    have held : ∀ y, z.has y → ¬ h.Child y d := fun y there child =>
      fresh d (Z.closed y d there child) rfl
    rintro y (there | rfl) child
    · exact held y there (((alike y there).child d).mp child)
    · exact held v here ⟨s, shows, C.of_child child⟩
  have P : h'.Private d _ := ⟨made.sequence, rfl, .inl C.managed, made.foreign⟩
  exact ⟨(Z.copied here shows C bare).claim (.inr rfl) P unheld marked σ,
    fun x there => ⟨.inl there, if_neg (fresh x there)⟩, fun x there _ => alike x there⟩

/-- Whatever a side can reach it can make its own, by copying it if it is shared. -/
theorem Zoned.writable (Z : h.Zoned c z) (here : z.has v)
    (ready : z.owner v = some σ ∨ h.IsShared v) :
    ∃ w h' z', Op.writable v h = .ok w h' ∧ Leads c σ z h z' h' ∧ z'.owner w = some σ ∧
      ∀ o, h.isAlive o = true → h'.isAlive o = true := by
  obtain ⟨cell, found, _⟩ := (Z.here v here).found
  have shows := sequence_eq_some_iff.mpr ⟨cell, found, rfl⟩
  have run := Call.writable_run found
  by_cases shared : cell.sharing.isShared = true
  · rw [if_pos shared] at run
    have full : h.IsShared v := ⟨_, shows, eq_of_beq shared⟩
    obtain ⟨d, h', copy, C⟩ := (Z.here v here).copy Z.intact Z.names shows
    have bare : ∀ x, h.Child v x → z.owner x = none := by
      intro x child
      cases own : z.owner x with
      | none => rfl
      | some τ => exact ((Z.unowned full).symm.trans (Z.up v x τ here child own)).symm
    exact ⟨d, h', _, run.trans copy, Z.leads_copy here shows C bare σ, if_pos rfl,
      fun o => C.moves.isAlive Z.intact⟩
  · rw [if_neg shared] at run
    refine ⟨v, h, z, run, Z.refl σ, ready.resolve_right ?_, fun _ => id⟩
    rintro ⟨s, same, full⟩
    cases shows.symm.trans same
    exact shared (by rw [show cell.sharing = .shared from full]; rfl)

theorem set_unshared {i : Nat} {missing : Bool} {f : Fault} (unshared : s.sharing.isShared = false)
    (refused : s.set i e missing = .error f) : f ≠ .panic .sharedWrite := by
  rintro rfl
  unfold Sequence.set at refused
  rw [if_neg (by rw [unshared]; decide : ¬ s.sharing.isShared = true)] at refused
  split at refused
  · cases refused
  · split at refused <;> cases refused

theorem Private.set (I : h.Intact) (P : h.Private w s)
    (alive : ∀ o, e.object? = some o → h.isAlive o = true) (i : Nat) :
    Outcome (setElem w i e) h
      (fun _ h' => h.Moves (Only w) (h.Behind w) h' ∧ e.type = s.type ∧
        h'.Private w (s.store i e (h.isNA e)) ∧ (h.isManaged w = true → h'.isManaged w = true))
      (fun f h' => Distinct f → f ≠ .panic .sharedWrite ∧ h' = h) := by
  obtain ⟨cell, found, rfl⟩ := sequence_eq_some_iff.mp P.shows
  have W := setElem_performs I found alive i
  have stays : ∀ u h', setElem w i e h = .ok u h' → h.isManaged w = true → h'.isManaged w = true := by
    intro u h' run managed
    obtain ⟨cell', b, found', hb⟩ := isManaged_iff.mp managed
    exact (setElem_managed I found' hb i e).ok run
  cases run : setElem w i e h with
  | ok u h' =>
    obtain ⟨M, s', ok, leaves⟩ := W.ok run
    cases set_eq ok
    refine .of_ok run ⟨M, ?_, ⟨leaves.1, P.unshared, P.placed.imp_left (stays u h' run),
      Option.eq_none_iff_forall_not_mem.mpr (fun b there => ?_)⟩, stays u h' run⟩
    · refine Decidable.byContradiction (fun other => ?_)
      rw [setElem_mistyped found other] at run
      cases run
    · exact absurd (P.domestic.symm.trans (leaves.2 b there)) (by simp)
  | error f h' =>
    refine .of_error run (fun distinct => ?_)
    rcases W.error run with ⟨_, ⟨rfl, refused⟩ | ⟨rfl, ⟨o, ho, orphaned⟩, _⟩⟩ | ⟨⟨k, rfl⟩, _⟩
    · exact ⟨set_unshared P.unshared refused, rfl⟩
    · refine ⟨by simp, ?_⟩
      rcases P.placed with managed | list
      · obtain ⟨cell', b, found', hb⟩ := isManaged_iff.mp managed
        exact (setElem_managed I found' hb i e).error run
      · -- A list takes lists only, and no list is orphaned.
        by_cases sort : e.type = cell.type
        · rw [show cell.type = .list from list] at sort
          cases e <;> cases sort
          cases ho
          exact orphaned.elim
        · rw [setElem_mistyped found sort] at run
          cases run
    · exact absurd rfl (distinct k)

structure Rewritten (h : Heap) (w : VectorId) (e : Elem) (h' : Heap) : Prop where
  others : ∀ x t, x ≠ w → h.sequence? x = some t →
    h'.sequence? x = some t ∧ h'.foreign? x = h.foreign? x
  resident : h.Resident h'
  shared : ∀ x, h.IsShared x → h'.IsShared x
  held : ∀ x, h'.Child w x → h.Child w x ∨ e = .list x

theorem Private.rewritten {i : Nat} {missing : Bool} (I : h.Intact) (P : h.Private w s)
    (M : h.Moves (Only w) (h.Behind w) h') (P' : h'.Private w (s.store i e missing))
    (stays : h.isManaged w = true → h'.isManaged w = true) : h.Rewritten w e h' := by
  have others : ∀ x t, x ≠ w → h.sequence? x = some t →
      h'.sequence? x = some t ∧ h'.foreign? x = h.foreign? x :=
    fun x t other shows => M.untouched I other
      (fun _ _ behind => absurd (P.domestic.symm.trans behind) (by simp)) shows
  refine ⟨others, fun x managed => ?_, ?_, ?_⟩
  · by_cases same : x = w
    · exact same ▸ stays (same ▸ managed)
    · obtain ⟨cell, b, found, _⟩ := isManaged_iff.mp managed
      exact ((M.keepsCell I same found).isManaged found).trans managed
  · rintro x ⟨t, shows, full⟩
    have other : x ≠ w := fun same => P.not_shared (same ▸ ⟨t, shows, full⟩)
    exact ⟨t, (others x t other shows).1, full⟩
  · rintro x ⟨t, shows, mem⟩
    cases P'.shows.symm.trans shows
    exact (Sequence.mem_store mem).imp (fun old => ⟨s, P.shows, old⟩) Eq.symm

theorem Local.set {i : Nat} {missing : Bool} (L : h.Local c w) (P : h.Private w s)
    (shows' : h'.sequence? w = some (s.store i e missing))
    (stays : h.isManaged w = true → h'.isManaged w = true)
    (contexts : ∀ o, h.contextOf? o = some c → h'.contextOf? o = some c)
    (sort : e.type = s.type) (fits : ∀ u, e = .list u → h.contextOf? (.vector u) = some c) :
    h'.Local c w := by
  refine ⟨contexts _ L.context, fun native t shows => ?_⟩
  cases shows'.symm.trans shows
  have before : h.isManaged w = false :=
    Bool.eq_false_iff.mpr (fun managed => absurd ((stays managed).symm.trans native) (by decide))
  intro e' held o object
  rcases Sequence.mem_store held with old | rfl
  · exact contexts o (L.own before s P.shows e' old o object)
  · -- What is private and native is a list.
    rw [P.placed.resolve_left (by rw [before]; decide)] at sort
    cases e' <;> cases sort
    cases object
    exact contexts _ (fits _ rfl)

theorem Zoned.set (Z : h.Zoned c z) (mine : z.owner w = some σ)
    (alive : ∀ o, e.object? = some o → h.isAlive o = true)
    (fits : ∀ u, e = .list u → z.owner u = some σ) (i : Nat) :
    Outcome (setElem w i e) h (fun _ h' => Leads c σ z h z h')
      (fun f h' => Distinct f → f ≠ .panic .sharedWrite ∧ h' = h) := by
  obtain ⟨there, s, P⟩ := Z.owned w σ mine
  refine (P.set Z.intact alive i).mono ?_ (fun _ _ => id)
  rintro _ h' ⟨M, sort, P', stays⟩
  have I' := M.intact Z.intact
  have R := P.rewritten Z.intact M P' stays
  have contexts : ∀ o, h.contextOf? o = some c → h'.contextOf? o = some c :=
    fun o => M.contextOf Z.intact
  -- The written vector is treated apart in each part: all else shows what it showed.
  have alike : ∀ x, z.has x → x ≠ w → h.Alike x h' := by
    intro x here other
    obtain ⟨t, shows⟩ := (Z.here x here).sequence
    exact alike_of_same shows (R.others x t other shows).1
  refine ⟨⟨I', M.namesIn Z.intact Z.names, fun x here => ?_, fun y x here child => ?_,
    fun y x τ here child own => ?_, fun y x τ own child => ?_, fun x τ own => ?_⟩,
    fun x here => ⟨here, rfl⟩, fun x here other => alike x here (fun same => other (same ▸ mine))⟩
  · by_cases same : x = w
    · subst same
      exact (Z.here x here).set P P'.shows stays contexts sort
        (fun u list => (Z.here u (Z.owned u σ (fits u list)).1).context)
    · exact (Z.here x here).later (alike x here same) (R.resident x) (fun o own _ => contexts o own) I'
  · by_cases same : y = w
    · subst same
      rcases R.held x child with old | new
      · exact Z.closed y x here old
      · exact (Z.owned x σ (fits x new)).1
    · exact Z.closed y x here (((alike y here same).child x).mp child)
  · by_cases same : y = w
    · subst same
      rcases R.held x child with old | new
      · exact Z.up y x τ here old own
      · exact mine.trans ((fits x new).symm.trans own)
    · exact Z.up y x τ here (((alike y here same).child x).mp child) own
  · by_cases same : y = w
    · subst same
      rcases R.held x child with old | new
      · exact (Z.down y x τ own old).imp_right (R.shared x)
      · exact .inl ((fits x new).trans (mine.symm.trans own))
    · have here := (Z.owned y τ own).1
      exact (Z.down y x τ own (((alike y here same).child x).mp child)).imp_right (R.shared x)
  · by_cases same : x = w
    · subst same
      exact ⟨there, _, P'⟩
    · obtain ⟨here, t, Q⟩ := Z.owned x τ own
      obtain ⟨shows, foreign⟩ := R.others x t same Q.shows
      exact ⟨here, t, shows, Q.unshared, Q.placed.imp_left (R.resident x),
        foreign.trans Q.domestic⟩

/-! ### Housekeeping -/

theorem Zoned.shed (Z : h.Zoned c z) (S : h.Sheds h') (U : h.Unlists h') :
    h'.Zoned c (z.cut h') ∧ ∀ x, z.has x → h'.has (.vector x) = true → h.Alike x h' := by
  have I' := S.intact Z.intact
  have same : ∀ {x}, h'.has (.vector x) = true → h'.sequence? x = h.sequence? x := by
    intro x there
    obtain ⟨cell, found'⟩ := has_vector_iff.mp there
    exact S.sequence Z.intact found'
  have alike : ∀ x, z.has x → h'.has (.vector x) = true → h.Alike x h' := by
    intro x here there
    obtain ⟨s, shows⟩ := (Z.here x here).sequence
    exact alike_of_same shows ((same there).trans shows)
  have kept : ∀ {x}, h'.has (.vector x) = true → h.isManaged x = h'.isManaged x := by
    intro x there
    obtain ⟨cell, found'⟩ := has_vector_iff.mp there
    rw [isManaged_of_found found', isManaged_of_found (S.vectors x cell found')]
  have child : ∀ {y x}, z.has y → h'.has (.vector y) = true → h'.Child y x →
      h.Child y x ∧ h'.has (.vector x) = true := by
    rintro y x here there ⟨s, shows, mem⟩
    refine ⟨((alike y here there).child x).mp ⟨s, shows, mem⟩, ?_⟩
    obtain ⟨cell, found', rfl⟩ := sequence_eq_some_iff.mp shows
    exact I'.alive_of_mem found' (List.mem_of_mem_take mem) (o := .vector x) rfl
  -- The cut zone owns what it did, less what is gone.
  have owner : ∀ {x σ}, (z.cut h').owner x = some σ →
      h'.has (.vector x) = true ∧ z.owner x = some σ := by
    intro x σ own
    rw [Zone.owner_cut] at own
    split at own
    · rename_i there
      exact ⟨there, own⟩
    · cases own
  refine ⟨⟨I', S.namesIn Z.intact U Z.names, ?_, ?_, ?_, ?_, ?_⟩, alike⟩
  · rintro x ⟨here, there⟩
    exact (Z.here x here).later (alike x here there) (fun managed => (kept there).symm.trans managed)
      (fun o own alive => (S.contextOf alive).trans own) I'
  · rintro y x ⟨here, there⟩ held
    obtain ⟨before, after⟩ := child here there held
    exact ⟨Z.closed y x here before, after⟩
  · rintro y x σ ⟨here, there⟩ held own
    rw [Zone.owner_cut, if_pos there]
    exact Z.up y x σ here (child here there held).1 (owner own).2
  · intro y x σ own held
    obtain ⟨there, own⟩ := owner own
    obtain ⟨before, after⟩ := child (Z.owned y σ own).1 there held
    rw [Zone.owner_cut, if_pos after]
    refine (Z.down y x σ own before).imp_right ?_
    rintro ⟨s, shows, full⟩
    exact ⟨s, (same after).trans shows, full⟩
  · intro x σ own
    obtain ⟨there, own⟩ := owner own
    obtain ⟨here, s, P⟩ := Z.owned x σ own
    obtain ⟨cell, found'⟩ := has_vector_iff.mp there
    have foreign := ((S.keepsCell Z.intact found').sequence Z.intact I' (S.vectors x cell found')
      (fun b _ => by rw [S.buffers])).2
    exact ⟨⟨here, there⟩, s, (same there).trans P.shows, P.unshared,
      P.placed.imp_left (fun managed => (kept there).symm.trans managed), foreign.trans P.domestic⟩

end Heap
end VectorHeap
