import Mathlib.Data.List.Forall2

set_option autoImplicit false

namespace ClientHints

variable {ε α β : Type}

theorem except_map_ok_iff (f : α → β) (x : Except ε α) (result : β) :
    x.map f = .ok result ↔ ∃ given, x = .ok given ∧ f given = result := by
  cases x with
  | error fault => simp [Except.map]
  | ok given => simp [Except.map]

theorem except_bind_ok_iff (x : Except ε α) (next : α → Except ε β) (result : β) :
    x >>= next = .ok result ↔ ∃ given, x = .ok given ∧ next given = .ok result := by
  cases x with
  | error fault => simp [bind, Except.bind]
  | ok given => simp [bind, Except.bind]

theorem except_bind_error_iff (x : Except ε α) (next : α → Except ε β) (fault : ε) :
    x >>= next = .error fault ↔ x = .error fault ∨ ∃ given, x = .ok given ∧ next given = .error fault := by
  cases x with
  | error first => simp [bind, Except.bind]
  | ok given => simp [bind, Except.bind]

theorem except_map_m_ok_iff (step : α → Except ε β) (items : List α) (results : List β) :
    items.mapM step = .ok results ↔ List.Forall₂ (fun item result => step item = .ok result) items results := by
  induction items generalizing results with
  | nil => cases results <;> simp [pure, Except.pure]
  | cons item rest ih =>
    rw [List.mapM_cons, except_bind_ok_iff]
    simp only [except_bind_ok_iff, ih, pure, Except.pure, Except.ok.injEq]
    cases results with
    | nil => simp
    | cons result others =>
      simp only [List.cons.injEq, List.forall₂_cons]
      constructor
      · rintro ⟨_, first, _, others, rfl, rfl⟩
        exact ⟨first, others⟩
      · rintro ⟨first, others⟩
        exact ⟨_, first, _, others, rfl, rfl⟩

def faultOf : Except ε α → Option ε
  | .ok _ => none
  | .error fault => some fault

theorem fault_of_map (f : α → β) (x : Except ε α) : faultOf (x.map f) = faultOf x := by
  cases x <;> rfl

theorem fault_of_bind {next : α → Except ε β} {second : Option ε} (x : Except ε α)
    (same : ∀ given, faultOf (next given) = second) : faultOf (x >>= next) = (faultOf x).or second := by
  cases x with
  | error fault => rfl
  | ok given => exact same given

theorem fault_of_map_m (step : α → Except ε β) (items : List α) :
    faultOf (items.mapM step) = items.findSome? fun item => faultOf (step item) := by
  induction items with
  | nil => rfl
  | cons item rest ih =>
    have others (first : β) : faultOf (rest.mapM step >>= fun results => pure (first :: results)) =
        rest.findSome? fun item => faultOf (step item) := by
      rw [← ih]
      cases rest.mapM step <;> rfl
    rw [List.mapM_cons, fault_of_bind _ others, List.findSome?_cons]
    cases faultOf (step item) <;> rfl

end ClientHints
