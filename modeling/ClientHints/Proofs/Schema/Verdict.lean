import ClientHints.Proofs.Schema.Rule

/-!
Verdicts on a document: no violation, or the first one. Places are compared step by step, steps by their
rank; verdicts on the parts of a value, in the order of the parts, make up the verdict on the value.
-/

set_option autoImplicit false

namespace ClientHints

abbrev Violations := List Step → Expectation → Option Json.Kind → Prop

namespace Violations

def under (step : Step) (v : Violations) : Violations :=
  fun steps expected found => ∃ rest, steps = step :: rest ∧ v rest expected found

variable (rank : Step → Nat)

def Ahead (v w : Violations) : Prop :=
  ∀ steps expected found others wanted kind, v steps expected found → w others wanted kind →
    steps.map rank < others.map rank

def First (v : Violations) (steps : List Step) (expected : Expectation) (found : Option Json.Kind) : Prop :=
  v steps expected found ∧ ∀ others wanted kind, v others wanted kind →
    (others = steps ∧ wanted = expected ∧ kind = found) ∨ steps.map rank < others.map rank

def Judged (v : Violations) (path : Path) : Option ShapeFault → Prop
  | none => ∀ steps expected found, ¬ v steps expected found
  | some fault => ∃ steps, fault.path = path.extend steps ∧ v.First rank steps fault.expected fault.found

variable {rank} {v w : Violations} {path : Path} {fault other : Option ShapeFault}

theorem judged_congr (judged : v.Judged rank path fault) (same : ∀ steps expected found,
    w steps expected found ↔ v steps expected found) : w.Judged rank path fault := by
  have equal : w = v := by
    funext steps expected found
    exact propext (same steps expected found)
  rw [equal]
  exact judged

theorem judged_under {step : Step} (judged : v.Judged rank (path.after step) fault) :
    (v.under step).Judged rank path fault := by
  cases fault with
  | none =>
    rintro _ expected found ⟨rest, rfl, violated⟩
    exact judged rest expected found violated
  | some fault =>
    obtain ⟨steps, located, violated, first⟩ := judged
    refine ⟨step :: steps, located, ⟨steps, rfl, violated⟩, ?_⟩
    rintro _ wanted kind ⟨rest, rfl, also⟩
    rcases first rest wanted kind also with ⟨rfl, rfl, rfl⟩ | later
    · exact .inl ⟨rfl, rfl, rfl⟩
    · exact .inr (List.cons_lt_cons_self.mpr later)

theorem ahead_under {first second : Step} (before : rank first < rank second) :
    (v.under first).Ahead rank (w.under second) := by
  rintro _ _ _ _ _ _ ⟨rest, rfl, -⟩ ⟨others, rfl, -⟩
  exact List.cons_lt_cons_iff.mpr (.inl before)

theorem judged_union (judged : v.Judged rank path fault) (afterwards : w.Judged rank path other)
    (ahead : v.Ahead rank w) :
    Judged rank (fun steps expected found => v steps expected found ∨ w steps expected found) path
      (fault.or other) := by
  cases fault with
  | some fault =>
    obtain ⟨steps, located, violated, first⟩ := judged
    refine ⟨steps, located, .inl violated, ?_⟩
    rintro others wanted kind (also | also)
    · exact first others wanted kind also
    · exact .inr (ahead _ _ _ _ _ _ violated also)
  | none =>
    refine judged_congr afterwards fun steps expected found => ?_
    simp [judged steps expected found]

-- The induction is on the parts: the first one has its say, then the rest.
theorem judged_each {α : Type} (parts : List α) (each : α → Violations) (verdict : α → Option ShapeFault)
    (judged : ∀ part ∈ parts, (each part).Judged rank path (verdict part))
    (apart : parts.Pairwise fun a b => (each a).Ahead rank (each b)) :
    Judged rank (fun steps expected found => ∃ part ∈ parts, each part steps expected found) path
      (parts.findSome? verdict) := by
  induction parts with
  | nil => rintro _ _ _ ⟨_, member, _⟩; cases member
  | cons part rest ih =>
    obtain ⟨before, restApart⟩ := List.pairwise_cons.mp apart
    have below := ih (fun other member => judged other (List.mem_cons_of_mem part member)) restApart
    have ahead : (each part).Ahead rank fun steps expected found => ∃ other ∈ rest, each other steps expected found := by
      rintro _ _ _ _ _ _ violated ⟨other, member, also⟩
      exact before other member _ _ _ _ _ _ violated also
    have union := judged_union (judged part List.mem_cons_self) below ahead
    have folded : (part :: rest).findSome? verdict = (verdict part).or (rest.findSome? verdict) := by
      rw [List.findSome?_cons]
      cases verdict part <;> rfl
    rw [folded]
    exact judged_congr union fun steps expected found => by simp

end Violations

end ClientHints
