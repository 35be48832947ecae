import ClientHints.Proofs.Json.Completeness

/-!
Texts cut short. What can be read of the front of a text is what the whole text reads as, unless that is a number:
once the last bracket or quote is closed, only spacing may follow.
-/

set_option autoImplicit false

namespace ClientHints.Json

namespace Reader

variable {state next last : State} {b : UInt8} {rest : Bytes}

theorem finished_step {value : Json} {outer : List Context}
    (stepped : step (.between (.finished value) outer) b = .ok next) : next = .between (.finished value) outer := by
  change pass (.finished value) outer b = .ok next at stepped
  unfold pass at stepped
  split at stepped
  · cases stepped
    rfl
  · cases stepped

theorem finished_feed {value : Json} {outer : List Context}
    (fed : feed (.between (.finished value) outer) rest = .ok last) : last = .between (.finished value) outer := by
  induction rest with
  | nil =>
    cases fed
    rfl
  | cons b rest ih =>
    rw [feed] at fed
    split at fed
    · rename_i next stepped
      obtain rfl := finished_step stepped
      exact ih fed
    · cases fed

-- A number outside of all arrays and objects is being read, or was read.
inductive OnNumber : State → Prop where
  | within (n : Numeral) : OnNumber (.within (.numeral n) [])
  | after (number : Number) (outer : List Context) : OnNumber (.between (.finished (.number number)) outer)

theorem on_number_step (numeric : OnNumber state) (stepped : step state b = .ok next) : OnNumber next := by
  cases numeric with
  | after number outer =>
    obtain rfl := finished_step stepped
    exact .after number outer
  | within n =>
    change stepNumeral n [] b = .ok next at stepped
    unfold stepNumeral at stepped
    split at stepped
    · cases stepped
      exact .within _
    · cases stepped
    · split at stepped
      · rename_i found _
        have same : next = .between (.finished (.number found)) [] := finished_step stepped
        exact same ▸ .after found []
      · cases stepped

theorem on_number_feed (numeric : OnNumber state) (fed : feed state rest = .ok last) : OnNumber last := by
  induction rest generalizing state with
  | nil =>
    cases fed
    exact numeric
  | cons b rest ih =>
    rw [feed] at fed
    split at fed
    · rename_i next stepped
      exact ih (on_number_step numeric stepped) fed
    · cases fed

theorem on_number_finish {value : Json} (numeric : OnNumber state) (finished : finish state = .ok value) :
    ∃ number, value = .number number := by
  cases numeric with
  | after number outer =>
    cases finished
    exact ⟨number, rfl⟩
  | within n =>
    rw [finish] at finished
    split at finished
    · rename_i found _
      cases finished
      exact ⟨found, rfl⟩
    · cases finished

theorem finish_point_ok {point : Point} {value : Json} (finished : finishPoint point = .ok value) :
    point = .finished value := by
  cases point with
  | finished =>
    cases finished
    rfl
  | _ => cases finished

theorem finish_ok {value : Json} (finished : finish state = .ok value) :
    (∃ outer, state = .between (.finished value) outer) ∨ OnNumber state := by
  cases state with
  | between point outer => exact .inl ⟨outer, by rw [finish_point_ok finished]⟩
  | within token outer =>
    cases token with
    | numeral n =>
      cases outer with
      | nil => exact .inr (.within n)
      | cons context outer =>
        rw [finish] at finished
        split at finished
        · have handed := finish_point_ok finished
          cases context <;> cases handed
        · cases finished
    | word | string | key => cases finished

end Reader

theorem read_front {front text : Bytes} {value root : Json} (cut : front <+: text) (short : read front = .ok value)
    (whole : read text = .ok root) : value = root ∨ ∃ number, root = .number number := by
  obtain ⟨rest, rfl⟩ := cut
  obtain ⟨middle, fed, early⟩ := (read_ok_iff front value).mp short
  obtain ⟨last, all, late⟩ := (read_ok_iff (front ++ rest) root).mp whole
  rw [Reader.feed_on fed] at all
  obtain ⟨outer, rfl⟩ | numeric := Reader.finish_ok early
  · obtain rfl := Reader.finished_feed all
    cases late
    exact .inl rfl
  · exact .inr (Reader.on_number_finish (Reader.on_number_feed numeric all) late)

end ClientHints.Json
