import LoxLexer.Json.Record

/-!
# Records decode field by field

A list is decoded when each of its elements is. An object with different keys yields the value of
each key, so a record that is written as an object with all its fields is read back from it.
-/
namespace LoxLexer.Json

/-- What is decoded one by one is decoded as a list. -/
theorem mapM_map_eq_some {α β γ : Type} {f : α → β} {g : β → Option γ} {k : α → γ} {xs : List α}
    (h : ∀ x ∈ xs, g (f x) = some (k x)) : (xs.map f).mapM g = some (xs.map k) := by
  induction xs with
  | nil => rfl
  | cons x xs ih =>
    obtain ⟨hx, hxs⟩ := List.forall_mem_cons.1 h
    rw [List.map_cons, List.mapM_cons, hx, ih hxs]
    rfl

theorem list?_array {α : Type} {encode : α → Json} {decode : Json → Option α} {xs : List α}
    (h : ∀ x ∈ xs, decode (encode x) = some x) :
    (array (xs.map encode)).list? decode = some xs := by
  rw [list?, mapM_map_eq_some h, List.map_id']

/-- A key of an object that is not repeated has the value of its entry. -/
theorem atKey?_eq {entries : List (String × Json)} (keys : (entries.map Prod.fst).Nodup)
    {e : String × Json} (h : e ∈ entries) : atKey? e.1 entries = some (some e.2) := by
  have single : entries.filter (fun x => x.1 == e.1) = [e] := by
    induction entries with
    | nil => cases h
    | cons x entries ih =>
      rw [List.map_cons, List.nodup_cons] at keys
      rcases List.mem_cons.1 h with rfl | h
      · have others : entries.filter (fun y => y.1 == e.1) = [] := by
          rw [List.filter_eq_nil_iff]
          intro y hy same
          exact keys.1 (List.mem_map.2 ⟨y, hy, eq_of_beq same⟩)
        rw [List.filter_cons_of_pos (by simp), others]
      · have other : x.1 ≠ e.1 := by
          intro same
          exact keys.1 (List.mem_map.2 ⟨e, h, same.symm⟩)
        rw [List.filter_cons_of_neg (by simpa using other), ih keys.2 h]
  rw [atKey?, single]

/-- An object with these names as its keys has all the fields. -/
theorem fields?_object {names : List String} {entries : List (String × Json)}
    (h : entries.map Prod.fst = names) (different : names.Nodup) :
    (object entries).fields? names = some (entries.map fun e => some e.2) := by
  subst h
  exact mapM_map_eq_some fun _ he => atKey?_eq different he

theorem record?_object {names : List String} {entries : List (String × Json)}
    (h : entries.map Prod.fst = names) (different : names.Nodup) :
    (object entries).record? names = some (entries.map Prod.snd) := by
  rw [record?, fields?_object h different]
  exact mapM_map_eq_some fun _ _ => rfl

theorem count?_nat {n : Nat} (h : n < UInt64.size) : (nat n).count? = some n :=
  if_pos h

end LoxLexer.Json
