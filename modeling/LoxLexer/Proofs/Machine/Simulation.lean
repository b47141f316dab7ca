import LoxLexer.Machine.Reading
import LoxLexer.Proofs.Lexeme.Meaning
import LoxLexer.Proofs.Lexing.Placement
import LoxLexer.Proofs.Piece.Fit

/-!
# What the machine reads

The cursor behind a part of a text is written down from that part and from the items found in it.
With such a cursor every step of the machine has an exact result, and none ends in a fault, as long
as the text has at most half as many bytes as the machine can count. A round of the machine reads
the first piece of what is left, so a run reads the cut of the text. The log is part of the cursor:
a step that adds a token or an error has its record in the result.
-/
namespace LoxLexer

/-- The cursor that has read `before` and then `read`, with a piece beginning between the two. -/
def Cursor.after (before read : List Char) (found : List Item) : Cursor where
  start := before.length
  startLine := lineAt before
  startColumn := columnAt before
  pos := (before ++ read).length
  line := lineAt (before ++ read)
  column := columnAt (before ++ read)
  tokens := found.filterMap Item.token?
  errors := found.filterMap Item.error?
  log := found.map Item.logRecord

/-- The cursor behind a piece that stands after `before`. -/
def Cursor.behind (before : List Char) (piece : Piece) (found : List Item) : Cursor :=
  .after before piece.text (found ++ (piece.item? (Span.ofText before piece.text)).toList)

/-- The text has at most half as many bytes as the machine can count. -/
def Machine.Roomy (m : Machine) : Prop :=
  2 * byteLength m.text ≤ m.maxCount

theorem Machine.roomy_of_utf8ByteSize {maxCount : Nat} {source : String}
    (h : source.utf8ByteSize ≤ maxCount / 2) : (Machine.mk maxCount source.toList).Roomy := by
  rw [Machine.Roomy, byteLength_toList, Nat.mul_comm]
  exact Nat.mul_le_of_le_div 2 _ _ h

theorem Cursor.origin_eq : Cursor.origin = .after [] [] [] := rfl

theorem Cursor.mark_after (before read : List Char) (found : List Item) :
    (Cursor.after before read found).mark = .after (before ++ read) [] found := by
  simp [Cursor.mark, Cursor.after]

theorem lineAt_le (cs : List Char) : lineAt cs ≤ cs.length + 1 := by
  rw [lineAt, Nat.add_comm]
  exact Nat.succ_le_succ List.count_le_length

theorem length_lastLine_le (cs : List Char) : (lastLine cs).length ≤ cs.length := by
  induction cs with
  | nil => exact Nat.le_refl _
  | cons c cs ih =>
    rw [lastLine]
    split
    · exact Nat.le_succ_of_le ih
    · exact Nat.le_refl _

theorem columnAt_le (cs : List Char) : columnAt cs ≤ cs.length + 1 := by
  rw [columnAt, Nat.add_comm]
  exact Nat.succ_le_succ (length_lastLine_le cs)

namespace Piece

variable {cs : List Char}

theorem firstNumber_of_fraction {d : Char} {rest : List Char}
    (h : cs.dropWhile Char.isDigit = '.' :: d :: rest) (hd : d.isDigit = true) :
    (firstNumber cs).1.text =
      cs.takeWhile Char.isDigit ++ '.' :: (d :: rest).takeWhile Char.isDigit := by
  rw [firstNumber, h]
  simp [hd, Decimal.text]

theorem firstNumber_of_plain
    (h : ∀ d rest, cs.dropWhile Char.isDigit = '.' :: d :: rest → d.isDigit = false) :
    (firstNumber cs).1.text = cs.takeWhile Char.isDigit := by
  unfold firstNumber
  split
  · rename_i d rest hrest
    rw [if_neg (by simp [h d rest hrest])]
    rfl
  · rfl

end Piece

namespace Machine

variable {m : Machine} {before read rest : List Char} {found : List Item} {c : Char}

/-- The machine counts on to every place in its text and to the first one behind it. -/
theorem Roomy.add_one (room : m.Roomy) {n : Nat} (h : n ≤ m.text.length) (hne : m.text ≠ []) :
    m.add n 1 = .ok (n + 1) := by
  have pos := List.length_pos_iff.2 hne
  have bytes := length_le_byteLength m.text
  have fits : n + 1 ≤ m.maxCount := Nat.le_trans (by omega) room
  rw [add, if_pos fits]

theorem table_get {xs ys : List Char} (text : m.text = xs ++ ys) :
    m.table[xs.length]? = ys.head?.map fun c => (byteLength xs, c) := by
  rw [table, text, charsFrom_append, List.getElem?_append_right (by simp), length_charsFrom,
    Nat.sub_self, Nat.zero_add]
  cases ys <;> rfl

theorem byteOffset_length {xs ys : List Char} (text : m.text = xs ++ ys) :
    m.byteOffset xs.length = byteLength xs := by
  rw [byteOffset, table_get text]
  cases ys with
  | nil => rw [text, List.append_nil]; rfl
  | cons c ys => rfl

/-- A cut meets no fault exactly when it starts and stops where some part of the text does. -/
theorem slice_eq_ok_iff {i j : Nat} {part : List Char} : m.slice i j = .ok part ↔
    ∃ xs zs, m.text = xs ++ part ++ zs ∧
      m.byteOffset i = byteLength xs ∧ m.byteOffset j = byteLength (xs ++ part) := by
  rw [slice, ← Span.slice?_eq_some_iff (s := ⟨m.byteOffset i, m.byteOffset j, 0, 0⟩)]
  split
  · rename_i cs hcs
    simp [hcs]
  · rename_i hnone
    simp [hnone]

theorem slice_between {xs ys zs : List Char} (text : m.text = xs ++ ys ++ zs) :
    m.slice xs.length (xs ++ ys).length = .ok ys := by
  have start := byteOffset_length (text.trans (List.append_assoc _ _ _))
  exact slice_eq_ok_iff.2 ⟨xs, zs, text, start, byteOffset_length text⟩

section Steps

theorem peek_after (text : m.text = before ++ read ++ rest) :
    m.peek (.after before read found) = rest.head? := by
  rw [peek, Cursor.after, table_get text, Option.map_map]
  exact Option.map_id_apply

theorem peekNext_after (room : m.Roomy) (text : m.text = before ++ read ++ c :: rest) :
    m.peekNext (.after before read found) = .ok rest.head? := by
  have shifted : m.text = before ++ read ++ [c] ++ rest := by simp [text]
  have next : (before ++ read).length + 1 = (before ++ read ++ [c]).length := by
    simp [Nat.add_assoc]
  have inside : (before ++ read).length ≤ m.text.length := by simp [text]
  rw [peekNext, Cursor.after, room.add_one inside (by simp [text]), next]
  change Except.ok (m.table[(before ++ read ++ [c]).length]?.map _) = _
  rw [table_get shifted, Option.map_map]
  exact congrArg Except.ok Option.map_id_apply

theorem atEnd_after (text : m.text = before ++ read ++ rest) :
    m.atEnd (.after before read found) = rest.isEmpty := by
  rw [atEnd, table, length_charsFrom, text]
  cases rest <;> simp [Cursor.after]

theorem advance_after (room : m.Roomy) (text : m.text = before ++ read ++ c :: rest) :
    m.advance (.after before read found) =
      .ok (some c, .after before (read ++ [c]) found) := by
  have hne : m.text ≠ [] := by simp [text]
  have inside : (before ++ read).length + 1 ≤ m.text.length := by
    simp only [text, List.length_append, List.length_cons]
    omega
  have line := room.add_one (Nat.le_trans (lineAt_le (before ++ read)) inside) hne
  have column := room.add_one (Nat.le_trans (columnAt_le (before ++ read)) inside) hne
  have pos := room.add_one (Nat.le_of_succ_le inside) hne
  have next : before ++ (read ++ [c]) = before ++ read ++ [c] := (List.append_assoc _ _ _).symm
  rw [advance, peek_after text]
  simp only [Cursor.after, List.head?_cons, next, List.length_append, List.length_singleton,
    lineAt_concat, columnAt_concat] at pos line column ⊢
  rw [pos]
  by_cases hc : c = '\n'
  · simp only [if_pos hc, line]
    rfl
  · simp only [if_neg hc, column]
    rfl

theorem accept_after (room : m.Roomy) (text : m.text = before ++ read ++ c :: rest) :
    m.accept c (.after before read found) =
      .ok (true, .after before (read ++ [c]) found) := by
  rw [accept, peek_after text, if_pos List.head?_cons, advance_after room text]
  rfl

theorem accept_after_of_ne (text : m.text = before ++ read ++ rest) (h : rest.head? ≠ some c) :
    m.accept c (.after before read found) = .ok (false, .after before read found) := by
  rw [accept, peek_after text, if_neg h]
  rfl

/-- A loop over characters of one sort stops in front of the first other one. -/
theorem skipWhile_after (room : m.Roomy) (p : Char → Bool)
    (text : m.text = before ++ read ++ rest) :
    m.skipWhile p (.after before read found) =
      .ok (.after before (read ++ rest.takeWhile p) found) := by
  induction rest generalizing read with
  | nil => rw [skipWhile_eq_self (by simp [peek_after text]), List.takeWhile_nil, List.append_nil]
  | cons c rest ih =>
    have peeked : m.peek (.after before read found) = some c := peek_after text
    by_cases hc : p c = true
    · have shifted : m.text = before ++ (read ++ [c]) ++ rest := by simp [text]
      have later := ih shifted
      rw [List.append_assoc] at later
      rw [skipWhile_eq_bind peeked hc, advance_after room text, List.takeWhile_cons_of_pos hc]
      exact later
    · rw [skipWhile_eq_self (by simpa [peeked] using hc), List.takeWhile_cons_of_neg hc,
        List.append_nil]

theorem span_after (text : m.text = before ++ read ++ rest) :
    m.span (.after before read found) = Span.ofText before read := by
  have start := byteOffset_length (text.trans (List.append_assoc _ _ _))
  have stop := byteOffset_length text
  rw [byteLength_append] at stop
  rw [Span.ofText_eq, ← stop, ← start]
  rfl

theorem lexeme_after (text : m.text = before ++ read ++ rest) :
    m.lexeme (.after before read found) = .ok read :=
  slice_between text

/-- The cuts one character inside each end of what was read meet no fault. -/
theorem inside_after {d : Char} {body : List Char} (room : m.Roomy)
    (text : m.text = before ++ (c :: body ++ [d]) ++ rest) :
    m.inside (.after before (c :: body ++ [d]) found) = .ok body := by
  have inner : m.text = before ++ [c] ++ body ++ d :: rest := by simp [text]
  have start : m.add before.length 1 = .ok (before ++ [c]).length := by
    rw [room.add_one (by simp [text]) (by simp [text])]
    simp
  have stop : Fault.sub (before ++ (c :: body ++ [d])).length 1 =
      .ok (before ++ [c] ++ body).length := by
    rw [Fault.sub, if_pos (by simp; omega)]
    simp [Nat.add_assoc]
  change (m.add before.length 1 >>= _) = _
  rw [start]
  change (Fault.sub (before ++ (c :: body ++ [d])).length 1 >>= _) = _
  rw [stop]
  exact slice_between inner

theorem addToken_after (kind : Kind) (literal : Option Literal)
    (text : m.text = before ++ read ++ rest) :
    m.addToken kind literal (.after before read found) =
      .ok (.after before read (found ++
        [.token ⟨kind, String.ofList read, literal, Span.ofText before read⟩])) := by
  rw [addToken, lexeme_after text, span_after text]
  simp [Cursor.after, Item.token?, Item.error?, Item.logRecord, bind, Except.bind, pure,
    Except.pure]

theorem addError_after (cause : LexError.Cause) (text : m.text = before ++ read ++ rest) :
    m.addError cause (.after before read found) =
      .after before read (found ++ [.error ⟨cause, Span.ofText before read⟩]) := by
  rw [addError, span_after text]
  simp [Cursor.after, Item.token?, Item.error?, Item.logRecord]

end Steps

section Readers

variable {cs : List Char}

theorem readDigits_after (room : m.Roomy) (hc : c.isDigit = true)
    (text : m.text = before ++ [c] ++ cs) :
    m.readDigits (.after before [c] found) =
      .ok (.after before (Piece.firstNumber (c :: cs)).1.text found) := by
  have whole : [c] ++ cs.takeWhile Char.isDigit = (c :: cs).takeWhile Char.isDigit := by simp [hc]
  have behind : m.text = before ++ (c :: cs).takeWhile Char.isDigit ++
      (c :: cs).dropWhile Char.isDigit := by
    rw [List.append_assoc, List.takeWhile_append_dropWhile, text]
    simp
  rw [readDigits, skipWhile_after room _ text, whole]
  change (if m.peek (.after before _ found) = some '.' then _ else _) = _
  rw [peek_after behind]
  by_cases hfraction : ∃ d rest,
      (c :: cs).dropWhile Char.isDigit = '.' :: d :: rest ∧ d.isDigit = true
  · obtain ⟨d, rest, hrest, hd⟩ := hfraction
    rw [Piece.firstNumber_of_fraction hrest hd]
    rw [hrest] at behind ⊢
    have shifted : m.text =
        before ++ ((c :: cs).takeWhile Char.isDigit ++ ['.']) ++ d :: rest := by simp [behind]
    rw [if_pos List.head?_cons, peekNext_after room behind]
    change (if d.isDigit = true then _ else _) = _
    rw [if_pos hd, advance_after room behind]
    change m.skipWhile _ _ = _
    rw [skipWhile_after room _ shifted, List.append_assoc]
    rfl
  · have plain : ∀ d rest, (c :: cs).dropWhile Char.isDigit = '.' :: d :: rest →
        d.isDigit = false := by
      intro d rest hrest
      simpa using fun hd => hfraction ⟨d, rest, hrest, hd⟩
    rw [Piece.firstNumber_of_plain plain]
    by_cases hpoint : ((c :: cs).dropWhile Char.isDigit).head? = some '.'
    · obtain ⟨rest, hrest⟩ := List.head?_eq_some_iff.1 hpoint
      rw [hrest] at behind
      rw [if_pos hpoint, peekNext_after room behind]
      change (if rest.head?.any Char.isDigit = true then _ else _) = _
      have other : ¬ rest.head?.any Char.isDigit = true := by
        cases rest with
        | nil => simp
        | cons d rest => simp [plain d rest hrest]
      rw [if_neg other]
      rfl
    · rw [if_neg hpoint]
      rfl

theorem readNumber_after (room : m.Roomy) (hc : c.isDigit = true)
    (text : m.text = before ++ [c] ++ cs) :
    m.readNumber (.after before [c] found) =
      .ok (.behind before (.lexeme (.number (Piece.firstNumber (c :: cs)).1)) found) := by
  have behind : m.text = before ++ (Piece.firstNumber (c :: cs)).1.text ++
      (Piece.firstNumber (c :: cs)).2 := by
    rw [List.append_assoc, Piece.firstNumber_text, text]
    simp
  rw [readNumber, readDigits_after room hc text]
  change (m.lexeme (.after before _ found) >>= _) = _
  rw [lexeme_after behind]
  change m.addToken _ _ _ = _
  rw [addToken_after _ _ behind, Decimal.canonical_text (Piece.firstNumber_valid hc cs)]
  rfl

theorem readWord_after (room : m.Roomy) (hc : isWordStart c = true)
    (text : m.text = before ++ [c] ++ cs) :
    m.readWord (.after before [c] found) =
      .ok (.behind before (.lexeme (.word ((c :: cs).takeWhile isWordPart))) found) := by
  have whole : [c] ++ cs.takeWhile isWordPart = (c :: cs).takeWhile isWordPart := by
    simp [isWordPart_of_isWordStart hc]
  have behind : m.text = before ++ (c :: cs).takeWhile isWordPart ++
      (c :: cs).dropWhile isWordPart := by
    rw [List.append_assoc, List.takeWhile_append_dropWhile, text]
    simp
  rw [readWord, skipWhile_after room _ text, whole]
  change (m.lexeme (.after before _ found) >>= _) = _
  rw [lexeme_after behind]
  change m.addToken _ _ _ = _
  rw [addToken_after _ _ behind, Cursor.behind, Piece.item?, Lexeme.token, Lexeme.kind]
  cases Keyword.ofText? ((c :: cs).takeWhile isWordPart) <;> rfl

theorem readString_after (room : m.Roomy) (text : m.text = before ++ ['"'] ++ cs) :
    m.readString (.after before ['"'] found) =
      .ok (.behind before (Piece.firstString cs).1 found) := by
  have behind : m.text = before ++ (['"'] ++ cs.takeWhile (· != '"')) ++
      cs.dropWhile (· != '"') := by
    rw [List.append_assoc, List.append_assoc, List.takeWhile_append_dropWhile, text,
      List.append_assoc]
  have quote := List.head?_dropWhile_not (· != '"') cs
  rw [readString, skipWhile_after room _ text]
  change (if m.atEnd (.after before _ found) then _ else _) = _
  rw [atEnd_after behind]
  unfold Piece.firstString
  cases hrest : cs.dropWhile (· != '"') with
  | nil =>
    rw [hrest] at behind
    rw [List.isEmpty_nil, if_pos rfl, addError_after _ behind]
    have whole := List.takeWhile_append_dropWhile (p := (· != '"')) (l := cs)
    rw [hrest, List.append_nil] at whole
    rw [whole]
    rfl
  | cons d rest =>
    obtain rfl : d = '"' := by simpa [hrest] using quote
    rw [hrest] at behind
    generalize cs.takeWhile (· != '"') = body at behind ⊢
    have closed : m.text = before ++ ('"' :: body ++ ['"']) ++ rest := by simp [behind]
    rw [List.isEmpty_cons, if_neg (by decide), advance_after room behind]
    change (m.inside (.after before ('"' :: body ++ ['"']) found) >>= _) = _
    rw [inside_after room closed]
    exact addToken_after _ _ closed

theorem readPunctuator_after (room : m.Roomy) {p : Punctuator} (hp : Punctuator.ofChar? c = some p)
    (text : m.text = before ++ [c] ++ cs) :
    m.readPunctuator p (.after before [c] found) =
      .ok (.behind before (.lexeme (.punctuator (Piece.firstPunctuator p cs).1)) found) := by
  have single := Punctuator.text_of_ofChar? hp
  have alone : m.text = before ++ p.text ++ cs := by rw [text, single]
  rw [readPunctuator]
  cases hq : p.withEqual? with
  | none =>
    have kept : Piece.firstPunctuator p cs = (p, cs) := by
      unfold Piece.firstPunctuator
      rw [hq]
    rw [kept, ← single]
    exact addToken_after _ _ alone
  | some q =>
    change (m.accept '=' _ >>= _) = _
    by_cases hequal : cs.head? = some '='
    · obtain ⟨rest, rfl⟩ := List.head?_eq_some_iff.1 hequal
      have double : [c] ++ ['='] = q.text := by rw [Punctuator.text_of_withEqual? hq, single]
      have both : m.text = before ++ q.text ++ rest := by simp [text, ← double]
      have taken : Piece.firstPunctuator p ('=' :: rest) = (q, rest) := by
        simp [Piece.firstPunctuator, hq]
      rw [accept_after room text, taken, double]
      exact addToken_after _ _ both
    · have kept : Piece.firstPunctuator p cs = (p, cs) := by
        apply Piece.firstPunctuator_append
        refine ⟨fun _ => hequal, ?_⟩
        rintro rfl
        cases hq
      rw [accept_after_of_ne text hequal, kept, ← single]
      exact addToken_after _ _ alone

/-- Behind its first character, the machine reads the rest of the piece that is first. -/
theorem readPiece_after (room : m.Roomy) (text : m.text = before ++ [c] ++ cs) :
    m.readPiece c (.after before [c] found) =
      .ok (.behind before (Piece.first c cs).1 found) := by
  have peeked : m.peek (.after before [c] found) = cs.head? := peek_after text
  unfold readPiece
  split
  · rename_i hblank
    rw [Piece.first_blank hblank, Cursor.behind]
    simp [Piece.item?, Piece.text, pure, Except.pure]
  split
  · rename_i hslash
    obtain ⟨rfl, hslash⟩ := hslash
    obtain ⟨rest, rfl⟩ := List.head?_eq_some_iff.1 (peeked.symm.trans hslash)
    rw [skipWhile_after room _ text, Piece.first_slashes, Cursor.behind]
    simp [Piece.item?, Piece.text]
  split
  · rename_i hdigit
    rw [readNumber_after room hdigit text, Piece.first_digit hdigit]
  split
  · rename_i hstart
    rw [readWord_after room hstart text, Piece.first_letter hstart]
  split
  · rename_i hquote
    obtain rfl := hquote
    rw [readString_after room text, Piece.first_quote]
  split
  · rename_i hslash _ _ _ _ p hp
    rw [readPunctuator_after room hp text, Piece.first_operator hp]
    intro hc hhead
    exact hslash ⟨hc, peeked.trans hhead⟩
  · rename_i hnone
    rw [Piece.first_unexpected (by simp_all [Piece.Valid]), addError_after _ text]
    rfl

theorem scanToken_after (room : m.Roomy) (text : m.text = before ++ c :: cs) :
    m.scanToken (.after before [] found) =
      .ok (.behind before (Piece.first c cs).1 found) := by
  rw [scanToken, advance_after room (by simpa using text)]
  change m.readPiece c (.after before [c] found) = _
  exact readPiece_after room (by simpa using text)

end Readers

/-- A run reads the pieces that are left, one a round. -/
theorem scan_after (room : m.Roomy) (text : m.text = before ++ read ++ rest) :
    ∃ front last, front ++ last = m.text ∧
      m.scan (.after before read found) = .ok (.after front last (found ++
        itemsOfPieces (Position.origin.after (before ++ read)) (cut rest))) := by
  induction rest using cut_induction generalizing before read found with
  | nil =>
    refine ⟨before, read, by simp [text], ?_⟩
    rw [scan_eq_self (by simp [atEnd_after text]), cut_nil]
    simp [itemsOfPieces]
  | cons c cs ih =>
    have whole := Piece.first_text c cs
    have shifted : m.text =
        before ++ read ++ (Piece.first c cs).1.text ++ (Piece.first c cs).2 := by
      rw [text, List.append_assoc _ _ (Piece.first c cs).2, whole]
    rw [scan_eq_bind (by simp [atEnd_after text]), Cursor.mark_after, scanToken_after room text,
      cut_cons, itemsOfPieces_cons, ← Position.after_append, ← List.append_assoc]
    exact ih shifted

/-- A whole run ends with the tokens, the errors and the log of its text. -/
theorem exists_run (room : m.Roomy) : ∃ s, m.run = .ok s ∧
    s.tokens = (lexChars m.text).tokens ∧ s.errors = (lexChars m.text).errors ∧
    s.log = recordsOf m.text := by
  obtain ⟨front, last, whole, found⟩ : ∃ front last, front ++ last = m.text ∧
      m.scan (.after [] [] []) = .ok (.after front last (items m.text)) := scan_after room rfl
  have stop : Token.eof ⟨byteLength m.text, byteLength m.text, lineAt (front ++ last),
      columnAt (front ++ last)⟩ = endToken m.text := by
    rw [whole, endToken, Span.point, Span.between, Position.origin_after]
  refine ⟨m.finish (.after front last (items m.text)), ?_, ?_, rfl, ?_⟩
  · rw [run, Cursor.origin_eq, found]
    rfl
  · rw [lexChars, ← stop]
    rfl
  · rw [recordsOf, ← stop]
    rfl

end Machine

end LoxLexer
