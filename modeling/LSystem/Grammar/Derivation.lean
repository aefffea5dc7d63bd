import LSystem.Grammar.Substitution
import LSystem.Json.Fault
import LSystem.Severity

/-!
# Grammars and their derivations

A grammar is a start word with rules. It is valid when the start word is not empty, and only then can
it be derived from: a derivation is the grammar together with a current word, which is the start word
after as many passes as are counted. Calls change a derivation, answer, and report each pass and each
return to the start.
-/
namespace LSystem

structure Grammar where
  start : Word
  rules : Rules

/-- Why a grammar cannot be used. -/
inductive GrammarError where
  | emptyStart
  | unreadable (fault : Json.Fault)
  deriving DecidableEq, Repr

/-- The description of an error, unless the text of the grammar was malformed. -/
def GrammarError.message? : GrammarError → Option String
  | emptyStart => some "invalid grammar configuration: `start` must contain at least one symbol"
  | unreadable fault => fault.message?.map fun m => "invalid grammar configuration: " ++ m

namespace Grammar

/-- The grammar of a start word without rules. -/
def ofStart (start : Word) : Grammar := ⟨start,∅⟩

/-- The grammar with one more rule, which replaces an earlier one for its symbol. -/
def withRule (g : Grammar) (c : Symbol) (w : Word) : Grammar :=
  { g with rules := g.rules.insert c w }

/-- The grammar of a start word and rules given in order. -/
def ofRules (start : Word) (rules : List (Symbol × Word)) : Grammar :=
  rules.foldl (fun g e => g.withRule e.1 e.2) (ofStart start)

def validate (g : Grammar) : Except GrammarError Unit :=
  if g.start = [] then .error .emptyStart else .ok ()

end Grammar

/-- What is reported while a derivation goes on. -/
inductive DerivationEvent where
  | pass (iteration byteLength : Nat)
  | resetToStart
  deriving DecidableEq, Repr

namespace DerivationEvent

def severity : DerivationEvent → Severity
  | pass _ _ => .debug
  | resetToStart => .debug

def message : DerivationEvent → String
  | pass _ _ => "rewrite pass"
  | resetToStart => "reset to axiom"

end DerivationEvent

/-- A grammar with its current word. -/
structure Derivation where
  start : Word
  rules : Rules
  iterations : Nat
  current : Word

namespace Derivation

/-- The derivation of a valid grammar before the first pass. -/
def ofGrammar (g : Grammar) : Except GrammarError Derivation :=
  g.validate.map fun _ => ⟨g.start,g.rules,0,g.start⟩

/-- One pass over the current word. -/
def pass (s : Derivation) : Derivation :=
  { s with iterations := s.iterations + 1, current := s.rules.substitute s.current }

/-- The report on the last pass. -/
def passEvent (s : Derivation) : DerivationEvent := .pass s.iterations (byteLength s.current)

/-- The given number of passes, with the report on each of them put before the given events. -/
def iterateOnto : Nat → Derivation → List DerivationEvent → Derivation × List DerivationEvent
  | 0, s, events => (s,events)
  | n + 1, s, events =>
    let t := s.pass
    iterateOnto n t (t.passEvent :: events)

/-- The given number of passes, and the report on each of them. -/
def iterate (n : Nat) (s : Derivation) : Derivation × List DerivationEvent :=
  let (t,events) := iterateOnto n s []
  (t,events.reverse)

theorem iterateOnto_eq (n : Nat) (s : Derivation) (events : List DerivationEvent) :
    iterateOnto n s events = ((iterateOnto n s []).1,(iterateOnto n s []).2 ++ events) := by
  induction n generalizing s events with
  | zero => rfl
  | succ n ih =>
    simp only [iterateOnto]
    rw [ih s.pass (s.pass.passEvent :: events),ih s.pass [s.pass.passEvent]]
    simp only [List.append_assoc,List.cons_append,List.nil_append]

@[simp] theorem iterate_zero (s : Derivation) : iterate 0 s = (s,[]) := rfl

/-- The first pass is reported first. -/
theorem iterate_succ (n : Nat) (s : Derivation) :
    iterate (n + 1) s = ((iterate n s.pass).1,s.pass.passEvent :: (iterate n s.pass).2) := by
  simp only [iterate,iterateOnto]
  rw [iterateOnto_eq n s.pass [s.pass.passEvent]]
  simp

/-- The start word again, with no pass counted. -/
def reset (s : Derivation) : Derivation := { s with iterations := 0, current := s.start }

/-- One rule in the summary of a derivation. -/
def showRule (e : Symbol × Word) : String := String.ofList (e.1 :: '=' :: '>' :: e.2)

/-- A derivation in one line, with the rules by increasing code point. -/
def summary (s : Derivation) : String :=
  "LindenmayerSystem(start=" ++ String.ofList s.start ++ " rules=\x7b" ++
    ", ".intercalate (s.rules.entries.map showRule) ++ "\x7d iterations=" ++ toString s.iterations ++ ")"

end Derivation

/-- What a derivation can be asked for. -/
inductive Call where
  | iterate (passes : Nat)
  | step
  | substitute (word : Word)
  | reset
  | start
  | rules
  | summary
  deriving DecidableEq, Repr

inductive Answer where
  | done
  | word (word : Word)
  | rules (rules : Rules)
  | text (text : String)

/-- A derivation after a call, the answer and the report. -/
structure Response where
  derivation : Derivation
  answer : Answer
  events : List DerivationEvent

namespace Derivation

/-- The response to a call for passes, which answers with the new current word. -/
def iterated (s : Derivation) (n : Nat) : Response :=
  let (t,events) := s.iterate n
  ⟨t,.word t.current,events⟩

def call (s : Derivation) : Call → Response
  | .iterate n => s.iterated n
  | .step => s.iterated 1
  | .substitute w => ⟨s,.word (s.rules.substitute w),[]⟩
  | .reset => ⟨s.reset,.done,[.resetToStart]⟩
  | .start => ⟨s,.word s.start,[]⟩
  | .rules => ⟨s,.rules s.rules,[]⟩
  | .summary => ⟨s,.text s.summary,[]⟩

/-- The responses to a sequence of calls. -/
def responses (s : Derivation) : List Call → List Response
  | [] => []
  | c :: calls =>
    let r := s.call c
    r :: r.derivation.responses calls

end Derivation

namespace Grammar

/-- The derivation of a valid grammar after the given number of passes, and the report on them. -/
def derive (g : Grammar) (n : Nat) : Except GrammarError (Derivation × List DerivationEvent) :=
  (Derivation.ofGrammar g).map (Derivation.iterate n)

/-- The start word after the given number of passes. -/
def expand (g : Grammar) (n : Nat) : Except GrammarError Word :=
  (g.derive n).map fun s => s.1.current

end Grammar

end LSystem
