import LoxLexer.Proofs.Json.Scalars

/-!
# The symbols of a value

A value is written as its symbols with blanks between some of them. Whatever the layout and the
depth of nesting, the symbols are read back from the text, since every scalar is followed by a
comma, a bracket, a blank or the end.
-/
namespace LoxLexer.Json

/-- Values as they are made here: numbers are natural, and every string has a text. -/
inductive Plain : Json → Prop
  | null : Plain null
  | bool (b : Bool) : Plain (bool b)
  | nat (n : Nat) : Plain (nat n)
  | string (s : String) : Plain (string s)
  | array {items : List Json} (h : ∀ j ∈ items, Plain j) : Plain (array items)
  | object {entries : List (String × Json)} (h : ∀ e ∈ entries, Plain e.2) : Plain (object entries)

/-- The symbols that a value is written with, in their order. -/
def symbols : Json → List Symbol
  | null => [.null]
  | bool b => [.bool b]
  | nat n => [.nat n]
  | number text => [.number text]
  | string s => [.string (some s)]
  | unpaired => [.string none]
  | array items => .openArray :: ([.comma].intercalate (items.map symbols) ++ [.closeArray])
  | object entries =>
    .openObject ::
      ([.comma].intercalate (entries.map fun e => .string (some e.1) :: .colon :: symbols e.2) ++
        [.closeObject])
termination_by j => sizeOf j
decreasing_by
  · have := List.sizeOf_lt_of_mem ‹_ ∈ items›
    simp_wf
    omega
  · exact sizeOf_value_lt ‹e ∈ entries›

/-- The end of a text, or a character with which no word and no number goes on. -/
def Ends (rest : List Char) : Prop :=
  ∀ c ∈ rest.head?, c.isAlpha = false ∧ Symbol.isNumberPart c = false

theorem ends_nil : Ends [] := by
  simp [Ends]

theorem ends_cons {c : Char} {cs : List Char} (letter : c.isAlpha = false)
    (number : Symbol.isNumberPart c = false) : Ends (c :: cs) := by
  rintro _ ⟨⟩
  exact ⟨letter, number⟩

theorem Ends.append {cs rest : List Char} (h : Ends cs) (hrest : Ends rest) :
    Ends (cs ++ rest) := by
  cases cs with
  | nil => exact hrest
  | cons c cs => exact h

/-- In front of the end of a scalar, `text` is read as the symbols `ss`. -/
def ReadsAs (text : List Char) (ss : List Symbol) : Prop :=
  ∀ rest, Ends rest → symbols? (text ++ rest) = (symbols? rest).map (ss ++ ·)

namespace ReadsAs

variable {text more : List Char} {ss us : List Symbol}

theorem nil : ReadsAs [] [] := by
  intro rest _
  simp

theorem append (h : ReadsAs text ss) (hmore : ReadsAs more us) (ends : Ends more) :
    ReadsAs (text ++ more) (ss ++ us) := by
  intro rest hrest
  rw [List.append_assoc, h _ (ends.append hrest), hmore rest hrest, Option.map_map]
  congr 1
  funext vs
  exact (List.append_assoc ss us vs).symm

theorem cons {c : Char} {s : Symbol} (space : Symbol.isSpace c = false)
    (first : ∀ rest, Ends rest → Symbol.first? c (text ++ rest) = some (s, more ++ rest))
    (h : ReadsAs more us) : ReadsAs (c :: text) (s :: us) := by
  intro rest hrest
  rw [List.cons_append, symbols?_cons _ space, first rest hrest]
  change (symbols? (more ++ rest)).map _ = _
  rw [h rest hrest, Option.map_map]
  rfl

/-- A bracket, a comma or a colon stands for itself, whatever follows. -/
theorem mark {c : Char} {s : Symbol} (space : Symbol.isSpace c = false)
    (first : ∀ rest, Symbol.first? c rest = some (s, rest)) (h : ReadsAs more us) :
    ReadsAs (c :: more) (s :: us) :=
  cons space (fun rest _ => first (more ++ rest)) h

theorem spaces {blanks : List Char} (blank : ∀ c ∈ blanks, Symbol.isSpace c = true)
    (h : ReadsAs more us) : ReadsAs (blanks ++ more) us := by
  induction blanks with
  | nil => exact h
  | cons c blanks ih =>
    obtain ⟨hc, hblanks⟩ := List.forall_mem_cons.1 blank
    intro rest hrest
    rw [List.cons_append, List.cons_append, symbols?_space _ hc]
    exact ih hblanks rest hrest

theorem quoted (s : String) (h : ReadsAs more us) :
    ReadsAs ((quote s).toList ++ more) (.string (some s) :: us) := by
  have text : (quote s).toList ++ more = '"' :: (s.toList.flatMap escape ++ '"' :: more) := by
    simp [quote]
  rw [text]
  apply cons rfl _ h
  intro rest _
  rw [List.append_assoc]
  exact Symbol.first?_quoted s (more ++ rest)

theorem word {c : Char} {letters : List Char} {s : Symbol}
    (letter : letters.all Char.isAlpha = true) (space : Symbol.isSpace c = false)
    (first : ∀ cs, Symbol.first? c cs =
      (Symbol.ofWord? (c :: cs.takeWhile Char.isAlpha)).map fun s => (s, cs.dropWhile Char.isAlpha))
    (known : Symbol.ofWord? (c :: letters) = some s) : ReadsAs (c :: letters) [s] := by
  apply cons space _ nil
  intro rest hrest
  have stop : ∀ d ∈ rest.head?, d.isAlpha = false := fun d hd => (hrest d hd).1
  have letter := List.all_eq_true.1 letter
  rw [first, takeWhile_append_of_head letter stop, dropWhile_append_of_head letter stop, known]
  rfl

theorem digits (n : Nat) : ReadsAs (Nat.toDigits 10 n) [.nat n] := by
  have isDigit := Symbol.isDigit_of_mem_toDigits (n := n)
  have number := Symbol.ofNumber?_toDigits n
  obtain ⟨c, cs, hcs⟩ := List.exists_cons_of_ne_nil (Nat.toDigits_ne_nil (n := n) (b := 10))
  rw [hcs] at isDigit number ⊢
  obtain ⟨hc, hdigits⟩ := List.forall_mem_cons.1 isDigit
  have space : Symbol.isSpace c = false := by
    simp only [Symbol.isSpace, Bool.or_eq_false_iff, beq_eq_false_iff_ne]
    refine ⟨⟨⟨?_, ?_⟩, ?_⟩, ?_⟩ <;> (rintro rfl; exact absurd hc (by decide))
  apply cons space _ nil
  intro rest hrest
  have part : ∀ d ∈ cs, Symbol.isNumberPart d = true :=
    fun d hd => Symbol.isNumberPart_of_isDigit (hdigits d hd)
  have stop : ∀ d ∈ rest.head?, Symbol.isNumberPart d = false := fun d hd => (hrest d hd).2
  rw [Symbol.first?_digit hc, takeWhile_append_of_head part stop,
    dropWhile_append_of_head part stop, number]
  rfl

end ReadsAs

theorem isSpace_of_mem_lineBreak {layout : Layout} {depth : Nat} :
    ∀ c ∈ (layout.lineBreak depth).toList, Symbol.isSpace c = true := by
  intro c hc
  cases layout with
  | compact => cases hc
  | indented =>
    simp only [Layout.lineBreak, String.toList_ofList, List.mem_cons, List.mem_replicate] at hc
    rcases hc with rfl | ⟨_, rfl⟩ <;> rfl

theorem ends_lineBreak {layout : Layout} {depth : Nat} : Ends (layout.lineBreak depth).toList := by
  cases layout with
  | compact => exact ends_nil
  | indented =>
    rw [Layout.lineBreak, String.toList_ofList]
    exact ends_cons (by decide) (by decide)

/-- Parts with commas and line breaks between them are read one after the other. -/
theorem ReadsAs.join {α : Type} {text : α → String} {spelling : α → List Symbol} {brk : List Char}
    (blank : ∀ c ∈ brk, Symbol.isSpace c = true) {x : α} {xs : List α}
    (h : ∀ y ∈ x :: xs, ReadsAs (text y).toList (spelling y)) :
    ReadsAs ((',' :: brk).intercalate ((x :: xs).map fun y => (text y).toList))
      ([.comma].intercalate ((x :: xs).map spelling)) := by
  induction xs generalizing x with
  | nil => simpa using h x List.mem_cons_self
  | cons y xs ih =>
    obtain ⟨hx, hxs⟩ := List.forall_mem_cons.1 h
    simp only [List.map_cons, List.intercalate_cons_cons, List.append_assoc, List.cons_append,
      List.nil_append]
    exact hx.append (mark rfl (fun _ => rfl) (spaces blank (ih hxs)))
      (ends_cons (by decide) (by decide))

/-- Parts between brackets are read between brackets, with one line each or without. -/
theorem ReadsAs.bracket {α : Type} {text : α → String} {spelling : α → List Symbol}
    {opening closing : String} {o c : Char} {first last : Symbol} {xs : List α} (layout : Layout)
    (depth : Nat) (opens : opening.toList = [o]) (closes : closing.toList = [c])
    (space : Symbol.isSpace o = false ∧ Symbol.isSpace c = false) (ends : Ends [c])
    (begins : ∀ rest, Symbol.first? o rest = some (first, rest))
    (stops : ∀ rest, Symbol.first? c rest = some (last, rest))
    (h : ∀ x ∈ xs, ReadsAs (text x).toList (spelling x)) :
    ReadsAs (Json.bracket layout depth opening closing (xs.map text)).toList
      (first :: ([.comma].intercalate (xs.map spelling) ++ [last])) := by
  have close : ReadsAs [c] [last] := mark space.2 stops nil
  cases xs with
  | nil => simpa [Json.bracket, opens, closes] using mark space.1 begins close
  | cons x xs =>
    have blank : ∀ d ∈ (layout.lineBreak (depth + 1)).toList, Symbol.isSpace d = true :=
      isSpace_of_mem_lineBreak
    have after : ReadsAs ((layout.lineBreak depth).toList ++ [c]) [last] :=
      spaces isSpace_of_mem_lineBreak close
    have behind : Ends ((layout.lineBreak depth).toList ++ [c]) := ends_lineBreak.append ends
    have whole := mark space.1 begins (spaces blank ((join blank h).append after behind))
    simpa [Json.bracket, String.toList_intercalate, Function.comp_def, opens, closes] using whole

/-- A value is read back as its symbols, in any layout and at any depth. -/
theorem Plain.readsAs {j : Json} (h : j.Plain) (layout : Layout) (depth : Nat) :
    ReadsAs (j.write layout depth).toList j.symbols := by
  induction h generalizing depth with
  | null =>
    rw [write, symbols]
    exact .word (by decide) rfl (fun _ => rfl) rfl
  | bool b =>
    rw [write, symbols]
    cases b with
    | true => exact .word (by decide) rfl (fun _ => rfl) rfl
    | false => exact .word (by decide) rfl (fun _ => rfl) rfl
  | nat n =>
    rw [write, symbols, Nat.toString_eq_ofList_toDigits, String.toList_ofList]
    exact .digits n
  | string s =>
    rw [write, symbols]
    simpa using ReadsAs.quoted s .nil
  | @array items _ ih =>
    rw [write, symbols]
    exact .bracket layout depth rfl rfl (by decide) (ends_cons (by decide) (by decide))
      (fun _ => rfl) (fun _ => rfl) fun j hj => ih j hj (depth + 1)
  | @object entries _ ih =>
    rw [write, symbols]
    apply ReadsAs.bracket layout depth rfl rfl (by decide) (ends_cons (by decide) (by decide))
      (fun _ => rfl) (fun _ => rfl)
    intro e he
    have value := ih e he (depth + 1)
    have colon : ReadsAs (layout.colon.toList ++ (e.2.write layout (depth + 1)).toList)
        (.colon :: e.2.symbols) := by
      cases layout with
      | compact => exact .mark rfl (fun _ => rfl) value
      | indented =>
        have blank : ∀ d ∈ [' '], Symbol.isSpace d = true := by simp [Symbol.isSpace]
        exact .mark rfl (fun _ => rfl) (.spaces blank value)
    simpa using ReadsAs.quoted e.1 colon

end LoxLexer.Json
