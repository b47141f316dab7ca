import LoxLexer.Json.Nesting
import LoxLexer.Proofs.Json.Record
import LoxLexer.Proofs.Json.Symbols

/-!
# Values read back

The symbols of a value bring the reader from any state in which a value may come to the one in
which that value has just been closed, with the same arrays and objects still open. So the text of a
value, in any layout, is read back as that value.
-/
namespace LoxLexer.Json

/-- The state after some symbols, unless one of them is refused. -/
def State.run? (s : State) (ss : List Symbol) : Option State :=
  ss.foldlM State.step? s

theorem State.run?_cons {s t : State} {x : Symbol} (h : s.step? x = some t) (ss : List Symbol) :
    s.run? (x :: ss) = t.run? ss := by
  rw [run?, List.foldlM_cons, h]
  rfl

theorem State.run?_append {s t : State} {ss : List Symbol} (h : s.run? ss = some t)
    (us : List Symbol) : s.run? (ss ++ us) = t.run? us := by
  rw [run?] at h
  rw [run?, List.foldlM_append, h]
  rfl

/-- Wherever a value may come, its symbols close it. -/
def Closes (j : Json) : Prop :=
  ∀ stack, (State.value stack).run? j.symbols = some (.closed j stack)

theorem intercalate_cons {α : Type} (sep x : List α) (xs : List (List α)) :
    sep.intercalate (x :: xs) = x ++ xs.flatMap (sep ++ ·) := by
  induction xs generalizing x with
  | nil => simp
  | cons y xs ih =>
    rw [List.intercalate_cons_cons, ih y, List.flatMap_cons, List.append_assoc, List.append_assoc]

/-- The first element of an array is read like the later ones: no value begins with the bracket that
would close the array. -/
theorem run?_firstElement (j : Json) (stack : List Frame) (ss : List Symbol) :
    (State.firstElement stack).run? (j.symbols ++ ss) =
      (State.value (.array [] :: stack)).run? (j.symbols ++ ss) := by
  obtain ⟨s, us, hs, open'⟩ : ∃ s us, j.symbols = s :: us ∧ s ≠ .closeArray := by
    cases j <;> rw [symbols] <;> exact ⟨_, _, rfl, by simp⟩
  have step : (State.firstElement stack).step? s = (State.value (.array [] :: stack)).step? s := by
    cases s <;> first | rfl | exact absurd rfl open'
  rw [hs, List.cons_append, State.run?, State.run?, List.foldlM_cons, List.foldlM_cons, step]

/-- The elements of an array behind `j`, up to its closing bracket. -/
theorem run?_elements {js : List Json} (h : ∀ i ∈ js, i.Closes) (j : Json) (before : List Json)
    (stack : List Frame) :
    (State.closed j (.array before :: stack)).run?
        ((js.map symbols).flatMap ([.comma] ++ ·) ++ [.closeArray]) =
      some (.closed (array (before.reverse ++ j :: js)) stack) := by
  induction js generalizing j before with
  | nil =>
    rw [List.append_cons, List.append_nil, ← List.reverse_cons]
    rfl
  | cons i js ih =>
    obtain ⟨hi, hjs⟩ := List.forall_mem_cons.1 h
    calc (State.closed j (.array before :: stack)).run?
          (((i :: js).map symbols).flatMap ([.comma] ++ ·) ++ [.closeArray])
        = (State.value (.array (j :: before) :: stack)).run?
            (i.symbols ++ ((js.map symbols).flatMap ([.comma] ++ ·) ++ [.closeArray])) := by
          rw [List.map_cons, List.flatMap_cons, List.append_assoc, List.append_assoc]
          exact State.run?_cons rfl _
      _ = (State.closed i (.array (j :: before) :: stack)).run?
            ((js.map symbols).flatMap ([.comma] ++ ·) ++ [.closeArray]) :=
          State.run?_append (hi _) _
      _ = some (.closed (array (before.reverse ++ j :: i :: js)) stack) := by
          rw [ih hjs, List.reverse_cons, List.append_assoc]
          rfl

theorem closes_array {js : List Json} (h : ∀ j ∈ js, j.Closes) : (array js).Closes := by
  intro stack
  rw [symbols, State.run?_cons rfl]
  cases js with
  | nil => exact State.run?_cons rfl []
  | cons j js =>
    obtain ⟨hj, hjs⟩ := List.forall_mem_cons.1 h
    rw [List.map_cons, intercalate_cons, List.append_assoc, run?_firstElement,
      State.run?_append (hj _), run?_elements hjs]
    rfl

/-- An entry as the reader keeps it. -/
def keep (e : String × Json) : Option String × Json :=
  (some e.1, e.2)

/-- Keys that all have a text make an object. -/
theorem ofEntries_keep (entries : List (String × Json)) :
    ofEntries (entries.map keep) = object entries := by
  have keys : (entries.map keep).mapM (fun e => e.1.map fun key => (key, e.2)) =
      some (entries.map fun e => e) := mapM_map_eq_some fun _ _ => rfl
  rw [ofEntries, keys, List.map_id']

/-- The symbols of an entry. -/
def entrySymbols (e : String × Json) : List Symbol :=
  .string (some e.1) :: .colon :: e.2.symbols

theorem run?_entry {e : String × Json} (h : e.2.Closes) {s : State}
    {before : List (Option String × Json)} {stack : List Frame}
    (key : s.step? (.string (some e.1)) = some (.colon before (some e.1) stack))
    (ss : List Symbol) :
    s.run? (entrySymbols e ++ ss) =
      (State.closed e.2 (.object before (some e.1) :: stack)).run? ss := by
  rw [entrySymbols, List.cons_append, State.run?_cons key, List.cons_append, State.run?_cons rfl,
    State.run?_append (h _)]

/-- The entries of an object behind `e`, up to its closing bracket. -/
theorem run?_entries {es : List (String × Json)} (h : ∀ x ∈ es, x.2.Closes) (e : String × Json)
    (before : List (Option String × Json)) (stack : List Frame) :
    (State.closed e.2 (.object before (some e.1) :: stack)).run?
        ((es.map entrySymbols).flatMap ([.comma] ++ ·) ++ [.closeObject]) =
      some (.closed (ofEntries (before.reverse ++ (e :: es).map keep)) stack) := by
  induction es generalizing e before with
  | nil =>
    rw [List.map_singleton, ← List.reverse_cons]
    rfl
  | cons x es ih =>
    obtain ⟨hx, hes⟩ := List.forall_mem_cons.1 h
    calc (State.closed e.2 (.object before (some e.1) :: stack)).run?
          (((x :: es).map entrySymbols).flatMap ([.comma] ++ ·) ++ [.closeObject])
        = (State.key (keep e :: before) stack).run?
            (entrySymbols x ++ ((es.map entrySymbols).flatMap ([.comma] ++ ·) ++
              [.closeObject])) := by
          rw [List.map_cons, List.flatMap_cons, List.append_assoc, List.append_assoc]
          exact State.run?_cons rfl _
      _ = (State.closed x.2 (.object (keep e :: before) (some x.1) :: stack)).run?
            ((es.map entrySymbols).flatMap ([.comma] ++ ·) ++ [.closeObject]) :=
          run?_entry hx rfl _
      _ = some (.closed (ofEntries (before.reverse ++ (e :: x :: es).map keep)) stack) := by
          rw [ih hes, List.reverse_cons, List.append_assoc]
          rfl

theorem closes_object {es : List (String × Json)} (h : ∀ e ∈ es, e.2.Closes) :
    (object es).Closes := by
  intro stack
  rw [symbols, State.run?_cons rfl]
  cases es with
  | nil => exact State.run?_cons rfl []
  | cons e es =>
    obtain ⟨he, hes⟩ := List.forall_mem_cons.1 h
    rw [← ofEntries_keep]
    rw [List.map_cons, intercalate_cons, List.append_assoc]
    exact (run?_entry he rfl _).trans (run?_entries hes e [] stack)

theorem Plain.closes {j : Json} (h : j.Plain) : j.Closes := by
  induction h with
  | null | bool | nat | string =>
    intro stack
    rw [symbols]
    rfl
  | array _ ih => exact closes_array ih
  | object _ ih => exact closes_object ih

/-- The text of a value is read back as that value, in any layout. -/
theorem parse?_write {j : Json} (h : j.Plain) (layout : Layout) :
    parse? (j.write layout 0) = some j := by
  have symbols := h.readsAs layout 0 [] ends_nil
  rw [List.append_nil, symbols?_nil, Option.map_some, List.append_nil] at symbols
  have closed : j.symbols.foldlM State.step? (.value []) = some (.closed j []) := h.closes []
  rw [parse?, symbols, Option.bind_some, ofSymbols?, closed]

end LoxLexer.Json
