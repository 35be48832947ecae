import ClientHints.Converter
import ClientHints.Proofs.Evidence.Reading

/-!
Evidence over runs of actions that begin with nothing. What an action does is told as a list of effects, writes
and resets; at any moment, evidence is what remains of the writes since the last reset.
-/

set_option autoImplicit false

namespace ClientHints

inductive Action where
  | insert (key value : String)
  | extend (entries : List (String × String))
  | collect (entries : List (String × String))
  | clear
  | convert (c : Converter) (format : Format) (input : String)
  | record (format : Format) (root : Json)

inductive Effect where
  | reset
  | write (key value : String)
deriving DecidableEq, Repr

namespace Effect

def writes (entries : List (String × String)) : List Effect :=
  entries.map fun entry => .write entry.1 entry.2

def note (written : List (String × String)) : Effect → List (String × String)
  | .reset => []
  | .write key value => written ++ [(key, value)]

def lasting (effects : List Effect) : List (String × String) :=
  effects.foldl note []

theorem note_writes (written entries : List (String × String)) : (writes entries).foldl note written = written ++ entries := by
  induction entries generalizing written with
  | nil => exact (List.append_nil written).symm
  | cons entry rest ih =>
    change (writes rest).foldl note (written ++ [entry]) = _
    rw [ih, List.append_assoc]
    rfl

end Effect

namespace Action

def apply (e : Evidence) : Action → Evidence
  | .insert key value => (e.insert key value).2
  | .extend entries => e.extend entries
  | .collect entries => .ofList entries
  | .clear => e.clear
  | .convert c format input => (c.convertInto format input e).evidence
  | .record format root => (format.schema.record root e).1

def run (actions : List Action) : Evidence :=
  actions.foldl apply .empty

def recorded (schema : Schema) (root : Json) : List (String × String) :=
  (schema.hints root).1.map fun (hint, value) => (hint.evidenceKey, value)

-- A conversion resets before it begins, and again when it fails.
def effects : Action → List Effect
  | .insert key value => [.write key value]
  | .extend entries => Effect.writes entries
  | .collect entries => .reset :: Effect.writes entries
  | .clear => [.reset]
  | .convert c format input => .reset :: match c.document format (Utf8.encode input) with
    | .error _ => [.reset]
    | .ok root => Effect.writes (recorded format.schema root) ++
      if (format.schema.hints root).2.isSome then [.reset] else []
  | .record format root => Effect.writes (recorded format.schema root)

theorem converted_evidence (c : Converter) (format : Format) (input : String) (e : Evidence) :
    (c.convertInto format input e).evidence = match c.document format (Utf8.encode input) with
      | .error _ => .empty
      | .ok root => if (format.schema.hints root).2.isSome then .empty else .ofList (recorded format.schema root) := by
  simp only [Converter.convertInto]
  cases c.document format (Utf8.encode input) with
  | error rejection => rfl
  | ok root =>
    have written : format.schema.record root e.clear =
        (.ofList (recorded format.schema root), (format.schema.hints root).2) := rfl
    simp only [written]
    cases (format.schema.hints root).2 <;> rfl

theorem apply_of_list (written : List (String × String)) (action : Action) :
    action.apply (.ofList written) = .ofList (action.effects.foldl Effect.note written) := by
  have extended (entries : List (String × String)) :
      (Evidence.ofList written).extend entries = .ofList ((Effect.writes entries).foldl Effect.note written) := by
    rw [Effect.note_writes]
    exact (Evidence.extend_append .empty written entries).symm
  cases action with
  | insert key value => exact extended [(key, value)]
  | extend entries => exact extended entries
  | collect entries =>
    change Evidence.ofList entries = .ofList ((Effect.writes entries).foldl Effect.note [])
    rw [Effect.note_writes]
    rfl
  | clear => rfl
  | record format root => exact extended (recorded format.schema root)
  | convert c format input =>
    rw [apply, converted_evidence, effects]
    cases c.document format (Utf8.encode input) with
    | error rejection => rfl
    | ok root =>
      simp only [List.foldl_cons, List.foldl_append, Effect.note_writes]
      cases (format.schema.hints root).2 <;> rfl

-- The induction is on what was done last; its effects come after all others.
theorem run_of_list (actions : List Action) : run actions = .ofList (Effect.lasting (actions.flatMap effects)) := by
  induction actions using List.reverseRecOn with
  | nil => rfl
  | append_singleton earlier last ih =>
    have stepped : run (earlier ++ [last]) = last.apply (run earlier) := List.foldl_concat _ _ _ _
    rw [stepped, ih, apply_of_list, Effect.lasting, Effect.lasting, List.flatMap_append, List.foldl_append]
    simp

theorem run_remembers_writes (actions : List Action) :
    (run actions).Remembers (Effect.lasting (actions.flatMap effects)) ∧ (run actions).ReadsAlike := by
  rw [run_of_list]
  have remembers := Evidence.of_list_remembers (Effect.lasting (actions.flatMap effects))
  exact ⟨remembers, Evidence.reads_alike _ remembers.distinct⟩

end Action

end ClientHints
