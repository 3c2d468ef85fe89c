/-!
# Operations that may fail, and what they do on the way

An operation takes a state to a result and a state, or fails in a state.
`andThen` runs one after another. `Act` also lists the events on the way;
forgetting them (`Act.plain`) turns `Act.bind` into `andThen`, so an operation can
be annotated without being changed. `Act.Triple` is the rule for proving that
every event is in order and what holds of the states it ends in.
-/

namespace Rkvc.Lib
set_option autoImplicit false

section AndThen
variable {σ α β : Type}

/-- One operation after another, unless the first fails. -/
def andThen (op : σ → Option α × σ) (k : α → σ → Option β × σ) (s : σ) : Option β × σ :=
  match op s with
  | (none, s) => (none, s)
  | (some a, s) => k a s

theorem andThen_none {op : σ → Option α × σ} {k : α → σ → Option β × σ} {s s1 : σ} (failed : op s = (none, s1)) :
    andThen op k s = (none, s1) := by
  unfold andThen
  rw [failed]

theorem andThen_some {op : σ → Option α × σ} {k : α → σ → Option β × σ} {s s1 : σ} {a : α}
    (done : op s = (some a, s1)) : andThen op k s = k a s1 := by
  unfold andThen
  rw [done]

end AndThen

/-- An operation on a state that may fail, and the events on its way. -/
abbrev Act (ω σ α : Type) : Type := σ → Option α × σ × List ω

namespace Act
variable {ω σ α β : Type}

protected def pure (a : α) : Act ω σ α := fun s => (some a, s, [])

def fail : Act ω σ α := fun s => (none, s, [])

/-- Events alone. -/
def note (events : List ω) : Act ω σ Unit := fun s => (some (), s, events)

/-- One operation after another, with the events of both. -/
protected def bind (op : Act ω σ α) (k : α → Act ω σ β) : Act ω σ β := fun s =>
  match op s with
  | (none, s, events) => (none, s, events)
  | (some a, s, events) => ((k a s).1, (k a s).2.1, events ++ (k a s).2.2)

/-- An operation that goes by the state. -/
def look (f : σ → Act ω σ α) : Act ω σ α := fun s => f s s

/-- The operation without its events. -/
def plain (op : Act ω σ α) (s : σ) : Option α × σ := ((op s).1, (op s).2.1)

@[simp] theorem plain_pure (a : α) (s : σ) : (Act.pure a : Act ω σ α).plain s = (some a, s) := rfl

@[simp] theorem plain_fail (s : σ) : (fail : Act ω σ α).plain s = (none, s) := rfl

@[simp] theorem plain_note (events : List ω) (s : σ) : (note events).plain s = (some (), s) := rfl

/-- **Forgetting the events commutes with sequencing.** -/
@[simp] theorem plain_bind (op : Act ω σ α) (k : α → Act ω σ β) (s : σ) :
    (op.bind k).plain s = andThen op.plain (fun a => (k a).plain) s := by
  unfold Act.bind plain andThen
  dsimp only
  cases ran : op s with
  | mk r rest => cases r <;> rfl

/-- Noted events do not show. -/
@[simp] theorem plain_note_bind (events : List ω) (k : Unit → Act ω σ β) (s : σ) :
    ((note events).bind k).plain s = (k ()).plain s := plain_bind _ _ _

@[simp] theorem plain_look (f : σ → Act ω σ α) (s : σ) : (look f).plain s = (f s).plain s := rfl

theorem plain_ite {p : Prop} [Decidable p] (f g : Act ω σ α) (s : σ) :
    (if p then f else g).plain s = if p then f.plain s else g.plain s := by
  by_cases h : p
  · rw [if_pos h, if_pos h]
  · rw [if_neg h, if_neg h]

/-! ## Triples -/

/-- What a result and the state it comes with meet. -/
def Ends (Q : α → σ → Prop) (F : σ → Prop) : Option α → σ → Prop
  | some a, s => Q a s
  | none, s => F s

/-- From a state of `P` every event is in order, a result leaves a state of `Q`, a
failure one of `F`. -/
def Triple (good : ω → Prop) (P : σ → Prop) (op : Act ω σ α) (Q : α → σ → Prop) (F : σ → Prop) : Prop :=
  ∀ s, P s → (∀ e ∈ (op s).2.2, good e) ∧ Ends Q F (op s).1 (op s).2.1

variable {good : ω → Prop} {P F : σ → Prop} {Q : α → σ → Prop} {R : β → σ → Prop}

theorem Triple.pure {a : α} (post : ∀ s, P s → Q a s) : Triple good P (Act.pure a) Q F := by
  intro s pre
  exact ⟨fun _ mem => absurd mem List.not_mem_nil, post s pre⟩

theorem Triple.fail (left : ∀ s, P s → F s) : Triple good P (fail : Act ω σ α) Q F := by
  intro s pre
  exact ⟨fun _ mem => absurd mem List.not_mem_nil, left s pre⟩

theorem Triple.note {events : List ω} (ok : ∀ e ∈ events, good e) : Triple good P (note events) (fun _ => P) F := by
  intro s pre
  exact ⟨ok, pre⟩

/-- **Sequencing**: what the first leaves, the second starts from. -/
theorem Triple.bind {op : Act ω σ α} {k : α → Act ω σ β} (first : Triple good P op Q F)
    (second : ∀ a, Triple good (Q a) (k a) R F) : Triple good P (op.bind k) R F := by
  intro s pre
  obtain ⟨events, left⟩ := first s pre
  unfold Act.bind
  cases ran : op s with
  | mk r rest =>
    obtain ⟨s1, before⟩ := rest
    rw [ran] at events left
    cases r with
    | none => exact ⟨events, left⟩
    | some a =>
      obtain ⟨more, after⟩ := second a s1 left
      constructor
      · intro e mem
        rcases List.mem_append.1 mem with early | late
        · exact events e early
        · exact more e late
      · exact after

/-- Events that are in order may be noted first. -/
theorem Triple.after_note {events : List ω} {k : Unit → Act ω σ β} (ok : ∀ e ∈ events, good e)
    (rest : Triple good P (k ()) R F) : Triple good P ((Act.note events).bind k) R F :=
  (Triple.note ok).bind fun _ => rest

theorem Triple.ite {p : Prop} [Decidable p] {f g : Act ω σ α} (left : p → Triple good P f Q F)
    (right : ¬p → Triple good P g Q F) : Triple good P (if p then f else g) Q F := by
  by_cases h : p
  · rw [if_pos h]
    exact left h
  · rw [if_neg h]
    exact right h

/-- The consequence rule. -/
theorem Triple.mono {P' F' : σ → Prop} {Q' : α → σ → Prop} {op : Act ω σ α} (triple : Triple good P op Q F)
    (pre : ∀ s, P' s → P s) (post : ∀ a s, Q a s → Q' a s) (left : ∀ s, F s → F' s) : Triple good P' op Q' F' := by
  intro s start
  obtain ⟨events, ends⟩ := triple s (pre s start)
  refine ⟨events, ?_⟩
  cases ran : (op s).1 with
  | none =>
    rw [ran] at ends
    exact left _ ends
  | some a =>
    rw [ran] at ends
    exact post a _ ends

/-- A stronger precondition is enough. -/
theorem Triple.pre {P' : σ → Prop} {op : Act ω σ α} (triple : Triple good P op Q F) (stronger : ∀ s, P' s → P s) :
    Triple good P' op Q F := fun s start => triple s (stronger s start)

theorem Triple.look {f : σ → Act ω σ α} (each : ∀ s, P s → Triple good (fun t => t = s) (f s) Q F) :
    Triple good P (look f) Q F := fun s pre => each s pre s rfl

end Act

end Rkvc.Lib
