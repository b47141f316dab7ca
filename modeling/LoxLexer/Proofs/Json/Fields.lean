import LoxLexer.Proofs.Json.Record
import Mathlib.Data.List.Forall2

/-!
# What a record holds

The fields of a record are described without a look at how they are searched: an array holds a value
for every name, and an object holds under a name the value of the only entry with this key, or
nothing. Entries with other keys, the order of the entries and the form of the record do not matter.
-/
namespace LoxLexer.Json

section Scalars

variable {j : Json}

/-- A name as a string, or as the only key of an object that holds null there. -/
def Names (j : Json) (name : String) : Prop :=
  j = string name ∨ j = object [(name, null)]

theorem string?_eq_some {s : String} : j.string? = some s ↔ j = string s := by
  cases j <;> simp [string?]

theorem bool?_eq_some {b : Bool} : j.bool? = some b ↔ j = bool b := by
  cases j <;> simp [bool?]

theorem count?_eq_some {n : Nat} : j.count? = some n ↔ j = nat n ∧ n < UInt64.size := by
  cases j with
  | nat m =>
    rw [count?, Option.ite_none_right_eq_some, Option.some_inj, nat.injEq]
    constructor
    · rintro ⟨h, rfl⟩
      exact ⟨rfl, h⟩
    · rintro ⟨rfl, h⟩
      exact ⟨h, rfl⟩
  | _ => simp [count?]

theorem plainName?_eq_some {name : String} : j.plainName? = some name ↔ j.Names name := by
  rw [Names]
  constructor
  · intro h
    rw [plainName?.eq_def] at h
    split at h
    · exact .inl (congrArg string (Option.some.inj h))
    · cases h
      exact .inr rfl
    · cases h
  · rintro (rfl | rfl) <;> rfl

end Scalars

/-- A key occurs in no entry of an object, or in exactly one. -/
inductive Holds : List (String × Json) → String → Option Json → Prop
  | absent {entries : List (String × Json)} {key : String} (absent : key ∉ entries.map Prod.fst) :
      Holds entries key none
  | once {before after : List (String × Json)} {key : String} (value : Json)
      (before_absent : key ∉ before.map Prod.fst) (after_absent : key ∉ after.map Prod.fst) :
      Holds (before ++ (key, value) :: after) key (some value)

/-- What a record holds under each name. -/
inductive HasFields (names : List String) : Json → List (Option Json) → Prop
  | array {items : List Json} (length : items.length = names.length) :
      HasFields names (array items) (items.map some)
  | object {entries : List (String × Json)} {values : List (Option Json)}
      (holds : List.Forall₂ (Holds entries) names values) :
      HasFields names (object entries) values

/-- A record in which no field is missing. -/
def HasAll (names : List String) (j : Json) (values : List Json) : Prop :=
  HasFields names j (values.map some)

theorem mapM_eq_some {α β : Type} {f : α → Option β} {xs : List α} {ys : List β} :
    xs.mapM f = some ys ↔ List.Forall₂ (fun x y => f x = some y) xs ys := by
  induction xs generalizing ys with
  | nil => cases ys <;> simp
  | cons x xs ih =>
    cases ys with
    | nil => simp [Option.bind_eq_some_iff]
    | cons y ys => simp [Option.bind_eq_some_iff, ih]

theorem mapM_congr {α β : Type} {f g : α → Option β} {xs : List α} (h : ∀ x ∈ xs, f x = g x) :
    xs.mapM f = xs.mapM g := by
  induction xs with
  | nil => rfl
  | cons x xs ih =>
    obtain ⟨hx, hxs⟩ := List.forall_mem_cons.1 h
    rw [List.mapM_cons, List.mapM_cons, hx, ih hxs]

theorem list?_eq_some {α : Type} {decode : Json → Option α} {j : Json} {xs : List α} :
    j.list? decode = some xs ↔
      ∃ items, j = array items ∧ List.Forall₂ (fun i x => decode i = some x) items xs := by
  cases j <;> simp [list?, mapM_eq_some]

theorem orNull?_eq_some {α : Type} {decode : Json → Option α} {j : Json} {found : Option α} :
    j.orNull? decode = some found ↔
      j = null ∧ found = none ∨ j ≠ null ∧ ∃ x, decode j = some x ∧ some x = found := by
  cases j with
  | null => simp [orNull?, eq_comm]
  | _ => simp [orNull?]

section Keys

variable {key : String} {entries entries' : List (String × Json)}

theorem filter_key_eq_nil :
    entries.filter (fun e => e.1 == key) = [] ↔ key ∉ entries.map Prod.fst := by
  rw [List.filter_eq_nil_iff, List.mem_map]
  constructor
  · rintro none ⟨e, he, rfl⟩
    exact none e he (beq_self_eq_true e.1)
  · intro absent e he same
    exact absent ⟨e, he, eq_of_beq same⟩

theorem atKey?_eq_some {found : Option Json} :
    atKey? key entries = some found ↔ Holds entries key found := by
  constructor
  · intro h
    rw [atKey?] at h
    split at h
    · next none =>
      cases h
      exact .absent (filter_key_eq_nil.1 none)
    · next e one =>
      cases h
      obtain ⟨before, after, rfl, hbefore, he, hafter⟩ := List.filter_eq_cons_iff.1 one
      obtain ⟨_, value⟩ := e
      cases eq_of_beq he
      exact .once value (filter_key_eq_nil.1 (List.filter_eq_nil_iff.2 hbefore))
        (filter_key_eq_nil.1 hafter)
    · cases h
  · intro h
    cases h with
    | absent absent => rw [atKey?, filter_key_eq_nil.2 absent]
    | once value hbefore hafter =>
      rw [atKey?, List.filter_append, filter_key_eq_nil.2 hbefore,
        List.filter_cons_of_pos (by simp), filter_key_eq_nil.2 hafter]
      rfl

theorem atKey?_perm (h : entries.Perm entries') : atKey? key entries = atKey? key entries' := by
  have perm := h.filter fun e => e.1 == key
  rw [atKey?, atKey?]
  generalize entries.filter (fun e => e.1 == key) = found at perm
  generalize entries'.filter (fun e => e.1 == key) = found' at perm
  rcases found with _ | ⟨e, _ | ⟨_, _⟩⟩
  · rw [perm.nil_eq]
  · rw [List.singleton_perm.1 perm]
  · have length := perm.length_eq
    rcases found' with _ | ⟨_, _ | ⟨_, _⟩⟩
    · cases length
    · cases length
    · rfl

theorem atKey?_drop {before after : List (String × Json)} {e : String × Json} (h : e.1 ≠ key) :
    atKey? key (before ++ e :: after) = atKey? key (before ++ after) := by
  rw [atKey?, atKey?, List.filter_append, List.filter_cons_of_neg (by simpa using h),
    ← List.filter_append]

end Keys

section Fields

variable {names : List String}

theorem fields?_eq_some {j : Json} {values : List (Option Json)} :
    j.fields? names = some values ↔ HasFields names j values := by
  constructor
  · intro h
    cases j with
    | array items =>
      rw [fields?] at h
      split at h
      · next length =>
        cases h
        exact .array length
      · cases h
    | object entries =>
      rw [fields?, mapM_eq_some] at h
      exact .object (h.imp fun _ _ => atKey?_eq_some.1)
    | _ => cases h
  · intro h
    cases h with
    | array length => rw [fields?, if_pos length]
    | object holds =>
      rw [fields?, mapM_eq_some]
      exact holds.imp fun _ _ => atKey?_eq_some.2

theorem record?_eq_some {j : Json} {values : List Json} :
    j.record? names = some values ↔ HasAll names j values := by
  have present (found : List (Option Json)) :
      found.mapM id = some values ↔ found = values.map some := by
    rw [mapM_eq_some, ← List.forall₂_eq_eq_eq, List.forall₂_map_right_iff]
    rfl
  rw [record?, Option.bind_eq_some_iff]
  constructor
  · rintro ⟨found, hfound, all⟩
    rw [(present found).1 all] at hfound
    exact fields?_eq_some.1 hfound
  · intro h
    exact ⟨values.map some, fields?_eq_some.2 h, (present _).2 rfl⟩

theorem HasAll.array_eq {items values : List Json} (h : HasAll names (array items) values) :
    items = values := by
  rw [HasAll] at h
  generalize same : values.map some = found at h
  cases h
  exact (List.map_injective_iff.2 (fun _ _ => Option.some.inj) same).symm

theorem fields?_perm {entries entries' : List (String × Json)} (h : entries.Perm entries') :
    (object entries).fields? names = (object entries').fields? names := by
  rw [fields?, fields?]
  exact mapM_congr fun _ _ => atKey?_perm h

/-- An entry with an unknown key may as well be missing. -/
theorem fields?_drop {before after : List (String × Json)} {e : String × Json} (h : e.1 ∉ names) :
    (object (before ++ e :: after)).fields? names = (object (before ++ after)).fields? names := by
  rw [fields?, fields?]
  refine mapM_congr fun name hname => atKey?_drop ?_
  rintro rfl
  exact h hname

/-- An object with its keys in order and the array of its values hold the same. -/
theorem fields?_array {entries : List (String × Json)} (h : entries.map Prod.fst = names)
    (different : names.Nodup) :
    (object entries).fields? names = (array (entries.map Prod.snd)).fields? names := by
  rw [fields?_object h different, fields?, if_pos (by rw [← h, List.length_map, List.length_map]),
    List.map_map]
  rfl

end Fields

end LoxLexer.Json
