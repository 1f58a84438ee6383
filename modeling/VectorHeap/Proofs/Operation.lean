import VectorHeap.Proofs.Heap.Change

/-! How operations run.
An operation takes a heap to an answer or to a fault, and to a heap in both cases. The laws here open
one step of an operation at a time; what an operation comes to is stated by `Outcome`, which binds
both ends at once, so that a fault is never left out. -/
namespace VectorHeap.Op

deriving instance DecidableEq for Except

variable {α β : Type}

def after (op : Op α) (h : Heap) : Heap :=
  match op h with
  | .ok _ h' => h'
  | .error _ h' => h'

def result (op : Op α) (h : Heap) : Except Fault α :=
  match op h with
  | .ok a _ => .ok a
  | .error f _ => .error f

/-- What an operation comes to from a heap: of its answers the first condition holds, of its faults
the second. -/
def Outcome (op : Op α) (h : Heap) (answers : α → Heap → Prop) (stops : Fault → Heap → Prop) : Prop :=
  match op h with
  | .ok a h' => answers a h'
  | .error f h' => stops f h'

/-! ### Steps -/

theorem bind_run (x : Op α) (f : α → Op β) (h : Heap) :
    (x >>= f) h = match x h with | .ok a h' => f a h' | .error e h' => .error e h' := by
  change EStateM.bind x f h = _
  unfold EStateM.bind
  cases x h <;> rfl

theorem bind_of_ok {x : Op α} {f : α → Op β} {h h' : Heap} {a : α} (run : x h = .ok a h') :
    (x >>= f) h = f a h' := by rw [bind_run, run]

theorem bind_of_error {x : Op α} {f : α → Op β} {h h' : Heap} {e : Fault}
    (run : x h = .error e h') : (x >>= f) h = .error e h' := by rw [bind_run, run]

theorem pure_run (a : α) (h : Heap) : (pure a : Op α) h = .ok a h := rfl

theorem map_run (g : α → β) (x : Op α) (h : Heap) :
    (g <$> x) h = match x h with | .ok a h' => .ok (g a) h' | .error e h' => .error e h' := by
  change EStateM.map g x h = _
  unfold EStateM.map
  cases x h <;> rfl

theorem discard_run {op : Op α} {h h' : Heap} {a : α} (run : op h = .ok a h') :
    (discard op : Op PUnit) h = .ok ⟨⟩ h' := (map_run _ op h).trans (by rw [run])

theorem get_run (h : Heap) : (get : Op Heap) h = .ok h h := rfl

theorem modify_run (f : Heap → Heap) (h : Heap) : (modify f : Op PUnit) h = .ok ⟨⟩ (f h) := rfl

theorem modifyGet_run (f : Heap → α × Heap) (h : Heap) :
    (modifyGet f : Op α) h = .ok (f h).1 (f h).2 := rfl

theorem fail_run (e : Error) (h : Heap) : (fail e : Op α) h = .error (.error e) h := rfl

theorem halt_run (p : Panic) (h : Heap) : (halt p : Op α) h = .error (.panic p) h := rfl

theorem ite_run (c : Prop) [Decidable c] (x y : Op α) (h : Heap) :
    (if c then x else y) h = if c then x h else y h := by split <;> rfl

theorem run_of_ok {op : Op α} {h : Heap} {a : α} (same : op.result h = .ok a) :
    op h = .ok a (op.after h) := by
  unfold result at same
  unfold after
  split at same
  · rename_i run
    cases same
    rw [run]
  · exact absurd same (by simp)

theorem run_of_error {op : Op α} {h : Heap} {f : Fault} (same : op.result h = .error f) :
    op h = .error f (op.after h) := by
  unfold result at same
  unfold after
  split at same
  · exact absurd same (by simp)
  · rename_i run
    cases same
    rw [run]

/-! ### What stands under an identity -/

theorem live_some (a : α) (h : Heap) : live (some a) h = .ok a h := rfl

theorem vector_run (v : VectorId) (h : Heap) : vector v h = live (h.vectors.find? v) h := rfl

theorem string_run (s : StringId) (h : Heap) : string s h = live (h.strings.find? s) h := rfl

theorem context_run (c : ContextId) (h : Heap) : context c h = live (h.contexts.find? c) h := rfl

theorem peer_run (p : PeerId) (h : Heap) : peer p h = live (h.peers.find? p) h := rfl

theorem frame_run (f : FrameId) (h : Heap) : frame f h = live (h.frames.find? f) h := rfl

section
variable {h : Heap}

theorem vector_bind {v : VectorId} {cell : VectorCell} (found : h.vectors.find? v = some cell)
    (f : VectorCell → Op β) : (vector v >>= f) h = f cell h :=
  bind_of_ok (by rw [vector_run, found, live_some])

theorem string_bind {s : StringId} {cell : StringCell} (found : h.strings.find? s = some cell)
    (f : StringCell → Op β) : (string s >>= f) h = f cell h :=
  bind_of_ok (by rw [string_run, found, live_some])

theorem context_bind {c : ContextId} {ctx : Context} (found : h.contexts.find? c = some ctx)
    (f : Context → Op β) : (context c >>= f) h = f ctx h :=
  bind_of_ok (by rw [context_run, found, live_some])

theorem peer_ok {p : PeerId} {q : Peer} (found : h.peers.find? p = some q) : peer p h = .ok q h := by
  rw [peer_run, found, live_some]

theorem peer_bind {p : PeerId} {q : Peer} (found : h.peers.find? p = some q)
    (f : Peer → Op β) : (peer p >>= f) h = f q h :=
  bind_of_ok (peer_ok found)

theorem frame_bind {i : FrameId} {b : Frame} (found : h.frames.find? i = some b)
    (f : Frame → Op β) : (frame i >>= f) h = f b h :=
  bind_of_ok (by rw [frame_run, found, live_some])

theorem get_bind (f : Heap → Op β) : ((get : Op Heap) >>= f) h = f h h := rfl

theorem modify_bind (g : Heap → Heap) (f : PUnit → Op β) :
    ((modify g : Op PUnit) >>= f) h = f ⟨⟩ (g h) := rfl

end

/-! ### Outcomes -/

variable {op : Op α} {h : Heap} {answers : α → Heap → Prop} {stops : Fault → Heap → Prop}

theorem Outcome.mono {answers' : α → Heap → Prop} {stops' : Fault → Heap → Prop}
    (o : Outcome op h answers stops) (ok : ∀ a h', answers a h' → answers' a h')
    (error : ∀ f h', stops f h' → stops' f h') : Outcome op h answers' stops' := by
  unfold Outcome at o ⊢
  split at o
  · exact ok _ _ o
  · exact error _ _ o

theorem Outcome.bind {x : Op β} {f : β → Op α} {middle : β → Heap → Prop}
    (first : Outcome x h middle stops) (rest : ∀ b h', middle b h' → Outcome (f b) h' answers stops) :
    Outcome (x >>= f) h answers stops := by
  unfold Outcome at first
  split at first
  · rename_i b h' hx
    have := rest b h' first
    simpa only [Outcome, bind_run, hx] using this
  · rename_i e h' hx
    simpa only [Outcome, bind_run, hx] using first

theorem Outcome.bind_run {x : Op β} {f : β → Op α} (first : ∀ e h', x h = .error e h' → stops e h')
    (rest : ∀ b h', x h = .ok b h' → Outcome (f b) h' answers stops) :
    Outcome (x >>= f) h answers stops := by
  unfold Outcome
  rw [Op.bind_run]
  cases run : x h with
  | ok b h' => exact rest b h' run
  | error e h' => exact first e h' run

theorem Outcome.bind_of_ok {x : Op β} {f : β → Op α} {b : β} {h' : Heap} (run : x h = .ok b h')
    (rest : Outcome (f b) h' answers stops) : Outcome (x >>= f) h answers stops := by
  simpa only [Outcome, Op.bind_run, run] using rest

theorem Outcome.of_ok {a : α} {h' : Heap} (run : op h = .ok a h') (ok : answers a h') :
    Outcome op h answers stops := by
  simpa only [Outcome, run] using ok

theorem Outcome.of_error {f : Fault} {h' : Heap} (run : op h = .error f h') (error : stops f h') :
    Outcome op h answers stops := by
  simpa only [Outcome, run] using error

theorem Outcome.map {x : Op β} {g : β → α}
    (o : Outcome x h (fun b h' => answers (g b) h') stops) : Outcome (g <$> x) h answers stops := by
  unfold Outcome at o ⊢
  rw [map_run]
  split at o
  · exact o
  · exact o

theorem Outcome.ok {a : α} {h' : Heap} (o : Outcome op h answers stops) (run : op h = .ok a h') :
    answers a h' := by
  simpa only [Outcome, run] using o

theorem Outcome.error {f : Fault} {h' : Heap} (o : Outcome op h answers stops)
    (run : op h = .error f h') : stops f h' := by
  simpa only [Outcome, run] using o

/-! ### Operations made of changes -/

/-- An operation comes to its outcome by changes, to what they may touch. A handle that is taken may
stop it in the middle of one. -/
def Performs (T : VectorId → Prop) (B : BufferId → Prop) (op : Op α) (h : Heap)
    (answers : α → Heap → Prop) (stops : Fault → Heap → Prop) : Prop :=
  Outcome op h (fun a h' => h.Moves T B h' ∧ answers a h')
    (fun f h' => (h.Moves T B h' ∧ stops f h') ∨
      (∃ k, f = .panic (.registeredTwice k)) ∧ ∃ h₁, h.Moves T B h₁ ∧ h₁.Refusal f h')

variable {T : VectorId → Prop} {B : BufferId → Prop}

theorem Performs.mono {answers' : α → Heap → Prop} {stops' : Fault → Heap → Prop}
    (P : Performs T B op h answers stops) (ok : ∀ a h', h.Moves T B h' → answers a h' → answers' a h')
    (error : ∀ f h', h.Moves T B h' → stops f h' → stops' f h') :
    Performs T B op h answers' stops' := by
  refine Outcome.mono P (fun a h' o => ⟨o.1, ok a h' o.1 o.2⟩) ?_
  rintro f h' (⟨M, o⟩ | refused)
  · exact .inl ⟨M, error f h' M o⟩
  · exact .inr refused

theorem Performs.widen {T' : VectorId → Prop} {B' : BufferId → Prop}
    (P : Performs T B op h answers stops) (touched : ∀ v, T v → T' v) (written : ∀ b, B b → B' b) :
    Performs T' B' op h answers stops := by
  refine Outcome.mono P (fun a h' o => ⟨o.1.mono touched written, o.2⟩) ?_
  rintro f h' (⟨M, o⟩ | ⟨twice, h₁, M, refused⟩)
  · exact .inl ⟨M.mono touched written, o⟩
  · exact .inr ⟨twice, h₁, M.mono touched written, refused⟩

theorem Performs.bind {x : Op β} {f : β → Op α} {middle : β → Heap → Prop}
    (first : Performs T B x h middle stops)
    (rest : ∀ b h₁, h.Moves T B h₁ → middle b h₁ → Performs T B (f b) h₁ answers stops) :
    Performs T B (x >>= f) h answers stops := by
  unfold Performs at first
  refine Outcome.bind first ?_
  rintro b h₁ ⟨M, mid⟩
  refine Outcome.mono (rest b h₁ M mid) (fun a h' o => ⟨M.trans o.1, o.2⟩) ?_
  rintro g h' (⟨M', o⟩ | ⟨twice, h₂, M', refused⟩)
  · exact .inl ⟨M.trans M', o⟩
  · exact .inr ⟨twice, h₂, M.trans M', refused⟩

theorem Performs.of_ok {a : α} {h' : Heap} (run : op h = .ok a h') (M : h.Moves T B h')
    (ok : answers a h') : Performs T B op h answers stops :=
  Outcome.of_ok run ⟨M, ok⟩

theorem Performs.of_error {f : Fault} {h' : Heap} (run : op h = .error f h') (M : h.Moves T B h')
    (error : stops f h') : Performs T B op h answers stops :=
  Outcome.of_error run (.inl ⟨M, error⟩)

theorem Performs.pure {a : α} (ok : answers a h) : Performs T B (Pure.pure a : Op α) h answers stops :=
  .of_ok rfl .refl ok

theorem Performs.after {op' : Op α} {h₁ : Heap} (M : h.Moves T B h₁) (run : op h = op' h₁)
    (rest : Performs T B op' h₁ answers stops) : Performs T B op h answers stops := by
  unfold Performs Outcome at rest ⊢
  rw [run]
  split at rest
  · exact ⟨M.trans rest.1, rest.2⟩
  · rcases rest with ⟨M', o⟩ | ⟨twice, h₂, M', refused⟩
    · exact .inl ⟨M.trans M', o⟩
    · exact .inr ⟨twice, h₂, M.trans M', refused⟩

theorem Performs.discard {ends : Heap → Prop}
    (P : Performs T B op h (fun _ h' => ends h') stops) :
    Performs T B (Functor.discard op) h (fun _ h' => ends h') stops := by
  have run : Functor.discard op h = (op >>= fun _ => Pure.pure ()) h := by
    rw [bind_run]
    exact map_run _ op h
  exact .after .refl run (P.bind (fun _ _ _ o => .pure o))

/-- One pass of a retried operation is done or leaves the rest to the others. -/
theorem Performs.retry {σ : Type} {pass : σ → Op (Pass σ α)} {n : Nat} {s : σ}
    (first : Performs T B (pass s) h
      (fun r h₁ => match r with
        | .done a => answers a h₁
        | .again s' => Performs T B (Op.retry pass n s') h₁ answers stops) stops) :
    Performs T B (Op.retry pass (n + 1) s) h answers stops := by
  refine first.bind (fun r h₁ M mid => ?_)
  cases r with
  | done a => exact .pure mid
  | again s' => exact mid

theorem Performs.retry_done {σ : Type} {pass : σ → Op (Pass σ α)} {n : Nat} {s : σ}
    (first : Performs T B (pass s) h (fun r h₁ => ∃ a, r = .done a ∧ answers a h₁) stops) :
    Performs T B (Op.retry pass (n + 1) s) h answers stops := by
  refine .retry (first.mono ?_ (fun _ _ _ => id))
  rintro r h₁ _ ⟨a, rfl, ok⟩
  exact ok

theorem Performs.retry_again {σ : Type} {pass : σ → Op (Pass σ α)} {n : Nat} {s : σ}
    (first : Performs T B (pass s) h
      (fun r h₁ => ∃ s', r = .again s' ∧ Performs T B (Op.retry pass n s') h₁ answers stops) stops) :
    Performs T B (Op.retry pass (n + 1) s) h answers stops := by
  refine .retry (first.mono ?_ (fun _ _ _ => id))
  rintro r h₁ _ ⟨s', rfl, rest⟩
  exact rest

end VectorHeap.Op
