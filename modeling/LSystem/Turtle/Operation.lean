import LSystem.Word

/-!
# Turtle operations

The turtle obeys twelve symbols. Every other symbol is a `noop`, whatever its width in bytes.
-/
namespace LSystem

inductive Operation where
  | draw
  | move
  | turnLeft
  | turnRight
  | push
  | pop
  | noop
  deriving DecidableEq, Repr

namespace Operation

/-- The operation that a symbol stands for. -/
def ofSymbol : Symbol → Operation
  | 'A' | 'B' | 'F' | 'G' => draw
  | 'a' | 'b' | 'f' | 'g' => move
  | '-' => turnLeft
  | '+' => turnRight
  | '[' => push
  | ']' => pop
  | _ => noop

/-- The symbols of an operation. -/
def keywords : Operation → Word
  | draw => ['A','B','F','G']
  | move => ['a','b','f','g']
  | turnLeft => ['-']
  | turnRight => ['+']
  | push => ['[']
  | pop => [']']
  | noop => []

def describe : Operation → String
  | draw => "Move forward by line length drawing a line"
  | move => "Move forward by line length without drawing a line"
  | turnLeft => "Turn left by turning angle"
  | turnRight => "Turn right by turning angle"
  | push => "Push current drawing state onto stack"
  | pop => "Pop current drawing state from the stack"
  | noop => "Ignored symbol"

/-- The name of an operation in documents and messages. -/
def name : Operation → String
  | draw => "Draw"
  | move => "Move"
  | turnLeft => "TurnLeft"
  | turnRight => "TurnRight"
  | push => "Push"
  | pop => "Pop"
  | noop => "Noop"

/-- All operations in the order in which messages list them. -/
def all : List Operation := [draw, move, turnLeft, turnRight, push, pop, noop]

def ofName? (name : String) : Option Operation := all.find? fun o => o.name = name

@[simp] theorem ofName?_name (o : Operation) : ofName? o.name = some o := by cases o <;> decide

theorem ofSymbol_of_mem_keywords {o : Operation} {c : Symbol} (h : c ∈ o.keywords) :
    ofSymbol c = o := by
  have all : ∀ d ∈ o.keywords, ofSymbol d = o := by
    cases o <;> simp only [keywords,ofSymbol,List.forall_mem_cons,List.not_mem_nil,
      false_imp_iff,implies_true,and_true]
  exact all c h

/-- The keywords are all the symbols of an operation that does something. -/
theorem mem_keywords_ofSymbol {c : Symbol} (h : ofSymbol c ≠ noop) : c ∈ (ofSymbol c).keywords := by
  revert h; unfold ofSymbol; split <;> simp [keywords]

end Operation

end LSystem
