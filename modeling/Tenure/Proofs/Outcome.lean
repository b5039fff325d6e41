import Tenure.Heap.State

/-!
# Outcomes of steps

A step on a state gives a result or ends with a fault, and either way there is a state after it.
`Ends` says what holds then. The rules here take a step apart along its binds and loops, so that a
proof about a pass or an operation of the heap cites one rule for each part of it.
-/

namespace Tenure

variable {ε σ α β : Type}

/-- The step gives a result with `good`, or ends with a fault and `bad`. -/
def Ends (x : EStateM ε σ α) (s : σ) (good : α → σ → Prop) (bad : ε → σ → Prop) : Prop :=
  match x s with
  | .ok a s' => good a s'
  | .error e s' => bad e s'

variable {x : EStateM ε σ α} {f : α → EStateM ε σ β} {s : σ} {bad : ε → σ → Prop}

/-- What holds at the end may be weakened. -/
theorem Ends.mono {good good' : α → σ → Prop} {bad' : ε → σ → Prop} (h : Ends x s good bad)
    (hg : ∀ a s', good a s' → good' a s') (hb : ∀ e s', bad e s' → bad' e s') :
    Ends x s good' bad' := by
  unfold Ends at h ⊢
  split
  · next a s' he => rw [he] at h; exact hg a s' h
  · next e s' he => rw [he] at h; exact hb e s' h

/-- What holds after a result may be weakened. -/
theorem Ends.imp {good good' : α → σ → Prop} (h : Ends x s good bad)
    (hg : ∀ a s', good a s' → good' a s') : Ends x s good' bad :=
  h.mono hg fun _ _ hb ↦ hb

/-- What two arguments show holds together. -/
theorem Ends.and {good good' : α → σ → Prop} {bad' : ε → σ → Prop} (h : Ends x s good bad)
    (h' : Ends x s good' bad') :
    Ends x s (fun a s' ↦ good a s' ∧ good' a s') (fun e s' ↦ bad e s' ∧ bad' e s') := by
  unfold Ends at h h' ⊢
  split
  · next a s' he =>
    rw [he] at h h'
    exact ⟨h, h'⟩
  · next e s' he =>
    rw [he] at h h'
    exact ⟨h, h'⟩

/-- The second step starts where the first one ends. -/
theorem ends_bind_iff {good : β → σ → Prop} :
    Ends (x >>= f) s good bad ↔ Ends x s (fun a s' ↦ Ends (f a) s' good bad) bad := by
  simp only [Ends, bind, EStateM.bind]
  cases x s <;> rfl

/-- The second step starts where the first one ends, and there `q` holds. -/
theorem Ends.bind {q : α → σ → Prop} {good : β → σ → Prop} (h : Ends x s q bad)
    (hf : ∀ a s', q a s' → Ends (f a) s' good bad) : Ends (x >>= f) s good bad :=
  ends_bind_iff.mpr (h.imp hf)

/-- A step that only gives a result changes nothing. -/
theorem ends_pure_iff {a : α} {good : α → σ → Prop} :
    Ends (pure a) s good bad ↔ good a s := Iff.rfl

/-- Of a step with a known result, what holds then is known. -/
theorem ends_iff_of_eq_ok {a : α} {s' : σ} {good : α → σ → Prop} (h : x s = .ok a s') :
    Ends x s good bad ↔ good a s' := by
  simp only [Ends, h]

/-- A step that gave a result ended well. -/
theorem Ends.of_eq_ok {a : α} {s' : σ} {good : α → σ → Prop} (h : Ends x s good bad)
    (he : x s = .ok a s') : good a s' := (ends_iff_of_eq_ok he).mp h

/-- A step that ended with a fault ended badly. -/
theorem Ends.of_eq_error {e : ε} {s' : σ} {good : α → σ → Prop} (h : Ends x s good bad)
    (he : x s = .error e s') : bad e s' := by
  simpa only [Ends, he] using h

/-- A step that cannot end badly gives a result. -/
theorem Ends.exists_eq_ok {good : α → σ → Prop} (h : Ends x s good fun _ _ ↦ False) :
    ∃ a s', x s = .ok a s' ∧ good a s' := by
  cases he : x s with
  | ok a s' => exact ⟨a, s', rfl, h.of_eq_ok he⟩
  | error e s' => exact (h.of_eq_error he).elim

/-- A step ends as it does. -/
theorem ends_self (x : EStateM ε σ α) (s : σ) :
    Ends x s (fun a s' ↦ x s = .ok a s') (fun e s' ↦ x s = .error e s') := by
  unfold Ends
  split <;> assumption

/-- A part that changes nothing and succeeds. -/
theorem ends_attempt_ok {γ : Type} {a : γ} {s : σ} {good : γ → σ → Prop}
    {bad : Fault → σ → Prop} : Ends (attempt (.ok a)) s good bad ↔ good a s := Iff.rfl

/-- A part that looks at the state changes nothing, also if it fails. -/
theorem ends_attempt {γ σ : Type} (look : σ → Except Fault γ) (s : σ) :
    Ends (fun s ↦ attempt (look s) s) s (fun _ s' ↦ s' = s) (fun _ s' ↦ s' = s) := by
  simp only [Ends]
  cases look s <;> rfl

/-- A step that throws ends with that fault. -/
theorem ends_throw_iff {e : ε} {good : α → σ → Prop} :
    Ends (throw e) s good bad ↔ bad e s := Iff.rfl

/-- What is to be found in the heap after an operation that succeeds. -/
def after? (op : HeapM Unit) (f : Heap → β) (h : Heap) : Option β :=
  match op h with
  | .ok _ h' => some (f h')
  | .error _ _ => none

section Heap

variable {h : Heap} {k : β → HeapM α} {good : α → Heap → Prop} {bad : Fault → Heap → Prop}

/-- What is seen after an operation is seen in the heap that it left. -/
theorem exists_of_after? {op : HeapM Unit} {f : Heap → β} {x : β} (ha : after? op f h = some x) :
    ∃ h', op h = .ok () h' ∧ f h' = x := by
  unfold after? at ha
  split at ha
  · next h' he => exact ⟨h', he, Option.some.inj ha⟩
  · cases ha

/-- A question about the heap changes nothing. -/
theorem ends_ask_bind {f : Heap → β} :
    Ends (Heap.ask f >>= k) h good bad ↔ Ends (k (f h)) h good bad := Iff.rfl

/-- What follows a change starts from the changed heap. -/
theorem ends_change_bind {f : Heap → Heap} {k : Unit → HeapM α} :
    Ends (Heap.change f >>= k) h good bad ↔ Ends (k ()) (f h) good bad := Iff.rfl

/-- The step after a change of memory starts from the memory as changed. -/
theorem ends_changeMemory_bind {f : Memory → Memory} {k : Unit → HeapM α} :
    Ends (Heap.changeMemory f >>= k) h good bad ↔
      Ends (k ()) { h with memory := f h.memory } good bad := Iff.rfl

/-- The step after an event starts from the heap that has recorded it. -/
theorem ends_tell_bind {event : Event} {k : Unit → HeapM α} :
    Ends (Heap.tell event >>= k) h good bad ↔
      Ends (k ()) { h with events := h.events.push event } good bad := Iff.rfl

end Heap

/-- A loop over a list keeps an invariant that tells the entries done from those to come. -/
theorem Ends.forM {xs : List α} {step : α → EStateM ε σ PUnit} (inv : List α → σ → Prop)
    (h : inv [] s)
    (hstep : ∀ done a rest s, xs = done ++ a :: rest → inv done s →
      Ends (step a) s (fun _ s' ↦ inv (done ++ [a]) s') bad) :
    Ends (xs.forM step) s (fun _ s' ↦ inv xs s') bad := by
  suffices hs : ∀ rest done s, xs = done ++ rest → inv done s →
      Ends (rest.forM step) s (fun _ s' ↦ inv xs s') bad from hs xs [] s rfl h
  intro rest
  induction rest with
  | nil =>
    intro done s hx hi
    rw [List.append_nil] at hx
    subst hx
    exact hi
  | cons a rest ih =>
    intro done s hx hi
    apply (hstep done a rest s hx hi).bind
    intro _ s' hi'
    exact ih (done ++ [a]) s' (by rw [hx, List.append_assoc, List.singleton_append]) hi'

/-- As `Ends.forM`, for a loop that collects results. -/
theorem Ends.mapM {xs : List α} {step : α → EStateM ε σ β} (inv : List α → List β → σ → Prop)
    (h : inv [] [] s)
    (hstep : ∀ done bs a rest s, xs = done ++ a :: rest → inv done bs s →
      Ends (step a) s (fun b s' ↦ inv (done ++ [a]) (bs ++ [b]) s') bad) :
    Ends (xs.mapM step) s (fun bs s' ↦ inv xs bs s') bad := by
  suffices hs : ∀ rest done bs s, xs = done ++ rest → inv done bs s →
      Ends (rest.mapM step) s (fun bs' s' ↦ inv xs (bs ++ bs') s') bad from hs xs [] [] s rfl h
  intro rest
  induction rest with
  | nil =>
    intro done bs s hx hi
    rw [List.append_nil] at hx
    subst hx
    rw [List.mapM_nil]
    exact ends_pure_iff.mpr (by rwa [List.append_nil])
  | cons a rest ih =>
    intro done bs s hx hi
    rw [List.mapM_cons]
    apply (hstep done bs a rest s hx hi).bind
    intro b s' hi'
    have hr := ih (done ++ [a]) (bs ++ [b]) s' (by simp [hx]) hi'
    refine hr.bind fun bs' s'' hi'' ↦ ends_pure_iff.mpr ?_
    rwa [List.append_assoc] at hi''

end Tenure
