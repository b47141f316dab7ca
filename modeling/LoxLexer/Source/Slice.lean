import LoxLexer.Source.Span

/-!
# Slices of a source text

A byte range names a part of a text only when it starts and ends between two characters. Whatever
stands between two positions reached by reading is such a part.
-/
namespace LoxLexer

/-- The text after its first `n` bytes, if a character ends there. -/
def dropBytes? : Nat → List Char → Option (List Char)
  | 0, cs => some cs
  | _ + 1, [] => none
  | n + 1, c :: cs => if c.utf8Size ≤ n + 1 then dropBytes? (n + 1 - c.utf8Size) cs else none

/-- The first `n` bytes of a text, if a character ends there. -/
def takeBytes? : Nat → List Char → Option (List Char)
  | 0, _ => some []
  | _ + 1, [] => none
  | n + 1, c :: cs =>
    if c.utf8Size ≤ n + 1 then (takeBytes? (n + 1 - c.utf8Size) cs).map (c :: ·) else none

/-- The part of a text that a span covers. -/
def Span.slice? (s : Span) (cs : List Char) : Option (List Char) :=
  if s.start ≤ s.stop then (dropBytes? s.start cs).bind (takeBytes? (s.stop - s.start)) else none

theorem dropBytes?_append (cs ds : List Char) :
    dropBytes? (byteLength cs) (cs ++ ds) = some ds := by
  induction cs with
  | nil => simp [dropBytes?]
  | cons c cs ih =>
    obtain ⟨n, hn⟩ := Nat.exists_eq_add_one.2 c.utf8Size_pos
    rw [byteLength_cons, hn, Nat.add_right_comm, List.cons_append, dropBytes?, hn,
      if_pos (by omega)]
    simpa using ih

theorem takeBytes?_append (cs ds : List Char) :
    takeBytes? (byteLength cs) (cs ++ ds) = some cs := by
  induction cs with
  | nil => simp [takeBytes?]
  | cons c cs ih =>
    obtain ⟨n, hn⟩ := Nat.exists_eq_add_one.2 c.utf8Size_pos
    rw [byteLength_cons, hn, Nat.add_right_comm, List.cons_append, takeBytes?, hn,
      if_pos (by omega)]
    simpa using ih

/-- The span between two positions of a text covers what was read from one to the other. -/
theorem Span.slice?_between (xs ys zs : List Char) :
    (between (Position.origin.after xs) (Position.origin.after (xs ++ ys))).slice?
      (xs ++ ys ++ zs) = some ys := by
  simp [slice?, between, Position.origin_after, -Position.after_append, dropBytes?_append,
    takeBytes?_append]

end LoxLexer
