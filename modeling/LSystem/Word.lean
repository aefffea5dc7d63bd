/-!
# Symbols and words

The alphabet is open: every character is a symbol, and a word is a list of symbols. Positions in a
word are counted in bytes of its UTF-8 form, in which a symbol takes one to four.
-/
namespace LSystem

abbrev Symbol := Char

abbrev Word := List Symbol

/-- The length of a word in bytes of UTF-8. -/
def byteLength : Word → Nat
  | [] => 0
  | c :: w => c.utf8Size + byteLength w

@[simp] theorem byteLength_nil : byteLength [] = 0 := rfl

@[simp] theorem byteLength_cons (c : Symbol) (w : Word) :
    byteLength (c :: w) = c.utf8Size + byteLength w := rfl

@[simp] theorem byteLength_append (u v : Word) : byteLength (u ++ v) = byteLength u + byteLength v := by
  induction u with
  | nil => simp
  | cons c u ih => simp only [List.cons_append,byteLength_cons,ih,Nat.add_assoc]

end LSystem
