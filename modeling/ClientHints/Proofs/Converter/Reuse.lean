import ClientHints.Proofs.Evidence.History

set_option autoImplicit false

namespace ClientHints

namespace Converter

variable (c : Converter) (format : Format) (input : String) (e : Evidence)

theorem convert_into_fresh : c.convertInto format input e = c.convertInto format input .empty := rfl

theorem rejected_evidence {rejection : Rejection} (rejected : (c.convertInto format input e).rejection = some rejection) :
    (c.convertInto format input e).evidence = .empty := by
  simp only [convertInto] at rejected ⊢
  generalize c.document format (Utf8.encode input) = document at rejected ⊢
  cases document with
  | error _ => rfl
  | ok root =>
    dsimp only at rejected ⊢
    generalize format.schema.record root e.clear = recorded at rejected ⊢
    obtain ⟨written, _ | fault⟩ := recorded
    · cases rejected
    · rfl

theorem convert_ok_iff_into (m : Evidence) : c.convert format input = .ok m ↔
    (c.convertInto format input e).rejection = none ∧ (c.convertInto format input e).evidence = m := by
  rw [convert, convert_into_fresh c format input e]
  cases (c.convertInto format input .empty).rejection with
  | none => simp
  | some rejection => simp

theorem convert_error_iff_into (rejection : Rejection) : c.convert format input = .error rejection ↔
    (c.convertInto format input e).rejection = some rejection ∧ (c.convertInto format input e).evidence = .empty := by
  have reported : c.convert format input = .error rejection ↔
      (c.convertInto format input .empty).rejection = some rejection := by
    rw [convert]
    cases (c.convertInto format input .empty).rejection with
    | none => simp
    | some other => simp
  rw [reported, convert_into_fresh c format input e]
  exact ⟨fun rejected => ⟨rejected, rejected_evidence c format input .empty rejected⟩, And.left⟩

end Converter

namespace Action

def outcome? (e : Evidence) : Action → Option Outcome
  | .convert c format input => some (c.convertInto format input e)
  | .insert _ _ | .extend _ | .collect _ | .clear | .record _ _ => none

-- What the conversions of a run tell, each of them made into the evidence that the actions before it left.
def outcomes (e : Evidence) : List Action → List Outcome
  | [] => []
  | action :: rest => (action.outcome? e).toList ++ outcomes (action.apply e) rest

theorem outcome_fresh (e : Evidence) (action : Action) : action.outcome? e = action.outcome? .empty := by
  cases action with
  | convert c format input => rfl
  | insert | extend | collect | clear | record => rfl

theorem outcomes_fresh (e : Evidence) (actions : List Action) : outcomes e actions = actions.filterMap (outcome? .empty) := by
  induction actions generalizing e with
  | nil => rfl
  | cons action rest ih =>
    rw [outcomes, ih, outcome_fresh e action, List.filterMap_cons]
    cases action.outcome? .empty <;> rfl

theorem reuse_is_fresh (actions : List Action) (c : Converter) (format : Format) (input : String) :
    (∀ m, c.convert format input = .ok m ↔ (c.convertInto format input (run actions)).rejection = none ∧
      (c.convertInto format input (run actions)).evidence = m) ∧
    (∀ rejection, c.convert format input = .error rejection ↔
      (c.convertInto format input (run actions)).rejection = some rejection ∧
      (c.convertInto format input (run actions)).evidence = .empty) ∧
    outcomes .empty actions = actions.filterMap (outcome? .empty) ∧
    ∀ later, run (actions ++ .convert c format input :: later) = run (.convert c format input :: later) := by
  refine ⟨Converter.convert_ok_iff_into c format input (run actions),
    Converter.convert_error_iff_into c format input (run actions), outcomes_fresh .empty actions, fun later => ?_⟩
  have continued : run (actions ++ .convert c format input :: later) =
      later.foldl apply (c.convertInto format input (run actions)).evidence := by
    rw [run, List.foldl_append]
    rfl
  rw [continued, Converter.convert_into_fresh]
  rfl

-- A faulty document leaves some evidence behind when it is recorded, and none when it is converted.
example : (run [.record .sua (.object [("architecture", .string "x"), ("bitness", .bool true)])]).size = 1 ∧
    run [.record .sua (.object [("architecture", .string "x"), ("bitness", .bool true)]),
      .convert .standard .sua "\x7b\"architecture\":\"x\",\"bitness\":true\x7d"] = .empty := ⟨rfl, rfl⟩

end Action

end ClientHints
