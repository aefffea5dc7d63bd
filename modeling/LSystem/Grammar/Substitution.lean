import LSystem.Grammar.Rules

/-!
# Substitution

One pass replaces every symbol of a word at once, from left to right: a symbol with a rule by its
replacement, any other by itself. A pass is therefore a homomorphism of words (`substitute_append`), and
so is any number of passes (`substituteTimes_append`).
-/
namespace LSystem.Rules

/-- What one pass puts in the place of a symbol. -/
def image (r : Rules) (c : Symbol) : Word := (r.find? c).getD [c]

/-- One pass over a word. -/
def substitute (r : Rules) (w : Word) : Word := w.flatMap r.image

/-- The given number of passes, one after the other. -/
def substituteTimes (r : Rules) : Nat → Word → Word
  | 0, w => w
  | n + 1, w => r.substituteTimes n (r.substitute w)

@[simp] theorem substitute_nil (r : Rules) : r.substitute [] = [] := rfl

@[simp] theorem substitute_cons (r : Rules) (c : Symbol) (w : Word) :
    r.substitute (c :: w) = r.image c ++ r.substitute w := rfl

@[simp] theorem substitute_append (r : Rules) (u v : Word) :
    r.substitute (u ++ v) = r.substitute u ++ r.substitute v := List.flatMap_append

@[simp] theorem substituteTimes_zero (r : Rules) (w : Word) : r.substituteTimes 0 w = w := rfl

theorem substituteTimes_succ (r : Rules) (n : Nat) (w : Word) :
    r.substituteTimes (n + 1) w = r.substituteTimes n (r.substitute w) := rfl

/-- Passes add up. -/
theorem substituteTimes_add (r : Rules) (m n : Nat) (w : Word) :
    r.substituteTimes (m + n) w = r.substituteTimes n (r.substituteTimes m w) := by
  induction m generalizing w with
  | zero => rw [Nat.zero_add,substituteTimes_zero]
  | succ m ih => rw [Nat.succ_add,substituteTimes_succ,ih,substituteTimes_succ]

theorem substituteTimes_succ' (r : Rules) (n : Nat) (w : Word) :
    r.substituteTimes (n + 1) w = r.substitute (r.substituteTimes n w) := substituteTimes_add r n 1 w

@[simp] theorem substituteTimes_append (r : Rules) (n : Nat) (u v : Word) :
    r.substituteTimes n (u ++ v) = r.substituteTimes n u ++ r.substituteTimes n v := by
  induction n generalizing u v with
  | zero => rfl
  | succ n ih => simp only [substituteTimes_succ,substitute_append,ih]

end LSystem.Rules
