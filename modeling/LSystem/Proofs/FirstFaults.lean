import LSystem.Document.Grammar
import LSystem.Document.Turtle
import LSystem.Proofs.Json.SteadyReaders

/-!
# The first fault decides

Every reader of documents is steady. So a text that is rejected for its shape is rejected for the
fault that comes first, at a place that is reached before anything behind it is looked at, and every
text that goes on after this place is rejected for the same fault, be it JSON or not. Only a numeral
at the end of the text must be left as it is: where a string should stand, `5` is a number, and `5e`
is nothing at all.
-/
namespace LSystem

open Json

theorem Point.reader_steady : Point.reader.Steady := by
  apply Reader.Steady.check
  apply Reader.tuple_steady
  simp only [List.forall_mem_cons,List.not_mem_nil,false_imp_iff,
    implies_true,and_true]
  exact ⟨Reader.number_steady.map _,Reader.number_steady.map _⟩

theorem Polyline.reader_steady : Polyline.reader.Steady := Reader.array_steady Point.reader_steady

namespace Bounds

theorem reader_steady : Bounds.reader.Steady := by
  apply Record.reader_steady
  simp only [record,fields,List.forall_mem_cons,List.not_mem_nil,false_imp_iff,
    implies_true,and_true]
  exact ⟨Point.reader_steady.map _,Point.reader_steady.map _⟩

theorem optionReader_steady : Bounds.optionReader.Steady where
  waits := rfl
  stands input more := by
    apply Stands.next rfl
    intro t input
    have hbounds := (Bounds.reader_steady.map some).stands (t :: input) more
    cases t with
    | null => exact .ok none input
    | _ => exact hbounds

end Bounds

theorem Drawing.reader_steady : Drawing.reader.Steady := by
  apply Record.reader_steady
  simp only [record,fields,List.forall_mem_cons,List.not_mem_nil,false_imp_iff,
    implies_true,and_true]
  exact ⟨(Reader.array_steady Polyline.reader_steady).map _,Bounds.optionReader_steady.map _⟩

theorem Pose.reader_steady : Pose.reader.Steady := by
  apply Record.reader_steady
  simp only [record,fields,List.forall_mem_cons,List.not_mem_nil,false_imp_iff,
    implies_true,and_true]
  exact ⟨Point.reader_steady.map _,Reader.number_steady.map _⟩

theorem Settings.reader_steady : Settings.reader.Steady := by
  apply Record.reader_steady
  simp only [record,fields,List.forall_mem_cons,List.not_mem_nil,false_imp_iff,
    implies_true,and_true]
  exact ⟨Point.reader_steady.map _,Reader.number_steady.map _,Reader.number_steady.map _,
    Reader.number_steady.map _⟩

namespace Operation

theorem closed_stands (o : Operation) (input more : List Token) :
    Stands more (closed o input) (closed o (input ++ more)) := by
  apply Stands.next rfl
  intro t input
  cases t with
  | colon =>
    apply Stands.next (f := fun input => closed o (.colon :: input)) rfl
    intro u input
    cases u with
    | null =>
      apply Stands.next (f := fun input => closed o (.colon :: .null :: input)) rfl
      intro v input
      cases v with
      | closeBrace => exact .ok o input
      | _ => exact .malformed _
    | _ => exact .error _
  | _ => exact .malformed _

theorem readerWith_steady (keyFault : Token → Fault) : (readerWith keyFault).Steady where
  waits := rfl
  stands input more := by
    apply Stands.next rfl
    intro t input
    cases t with
    | string codes =>
      simp only [readerWith]
      cases ofCodes codes with
      | error f => exact .error f
      | ok o => exact .ok o input
    | openBrace =>
      apply Stands.next (f := fun input => (readerWith keyFault).run (.openBrace :: input)) rfl
      intro u input
      cases u with
      | string codes =>
        simp only [readerWith]
        cases ofCodes codes with
        | error f => exact .error f
        | ok o => exact closed_stands o input more
      | _ => exact .error _
    | _ => exact .malformed _

variable {keyFault other : Token → Fault}

theorem readerWith_run_of_ok {input : List Token} {p : Operation × List Token}
    (h : (readerWith keyFault).run input = .ok p) : (readerWith other).run input = .ok p := by
  rcases input with _ | ⟨t,input⟩
  · exact h
  · cases t with
    | openBrace =>
      rcases input with _ | ⟨u,input⟩
      · exact h
      · cases u with
        | string codes => exact h
        | _ => exact absurd h (by simp [readerWith])
    | _ => exact h

/-- Which operation a text holds does not depend on the fault of a key that is no string. -/
theorem readerWith_ofText_of_ok {text : List Char} {o : Operation}
    (h : (readerWith keyFault).ofText text = .ok o) : (readerWith other).ofText text = .ok o := by
  simp only [Reader.ofText] at h ⊢
  cases hr : (readerWith keyFault).run (Scan.ofText text).tokens with
  | error f =>
    rw [hr] at h
    exact absurd h (by simp)
  | ok p =>
    rw [hr] at h
    rw [readerWith_run_of_ok hr]
    exact h

end Operation

theorem Rules.select_steady (r : Rules) (key : List Char) (s : Reader Rules)
    (h : r.select key = .ok s) : s.Steady := by
  unfold select at h
  split at h
  · cases h
    exact Reader.string_steady.map _
  · exact absurd h (by simp)

theorem Rules.reader_steady : Rules.reader.Steady :=
  Reader.object_steady Rules.select_steady .map ∅

theorem Grammar.reader_steady : Grammar.reader.Steady := by
  apply Record.reader_steady
  simp only [record,fields,List.forall_mem_cons,List.not_mem_nil,false_imp_iff,
    implies_true,and_true]
  exact ⟨Reader.string_steady.map _,Rules.reader_steady.map _⟩

/-- The check of the start word comes after reading and finds no fault of the text. -/
theorem Grammar.ofText_eq_unreadable_iff {text : List Char} {fault : Fault} :
    Grammar.ofText text = .error (.unreadable fault) ↔ reader.ofText text = .error fault := by
  unfold ofText
  cases reader.ofText text with
  | error f => simp
  | ok g =>
    simp only [validate]
    split <;> simp [Except.map]

/-- What a document is rejected for, if there is a message, does not change when the text goes on. It
may go on with a sign too, since no numeral does. For operations this holds whatever a key is faulted
for that is no string. -/
theorem first_fault_decides {text more : List Char} {fault : Fault} {message : String}
    (hmessage : fault.message? = some message) (hstops : Stops more) :
    (Grammar.ofText text = .error (.unreadable fault) →
      Grammar.ofText (text ++ more) = .error (.unreadable fault)) ∧
    (Grammar.reader.ofText text = .error fault →
      Grammar.reader.ofText (text ++ more) = .error fault) ∧
    (Settings.reader.ofText text = .error fault →
      Settings.reader.ofText (text ++ more) = .error fault) ∧
    (Pose.reader.ofText text = .error fault →
      Pose.reader.ofText (text ++ more) = .error fault) ∧
    (Operation.reader.ofText text = .error fault →
      Operation.reader.ofText (text ++ more) = .error fault) ∧
    (∀ keyFault, (Operation.readerWith keyFault).ofText text = .error fault →
      (Operation.readerWith keyFault).ofText (text ++ more) = .error fault) ∧
    (Bounds.reader.ofText text = .error fault →
      Bounds.reader.ofText (text ++ more) = .error fault) ∧
    (Drawing.reader.ofText text = .error fault →
      Drawing.reader.ofText (text ++ more) = .error fault) := by
  have hshape : fault ≠ .malformed := by
    intro h
    rw [(Fault.message?_eq_none_iff fault).2 h] at hmessage
    exact absurd hmessage (by simp)
  have hstands {α : Type} {r : Reader α} (hr : r.Steady) (h : r.ofText text = .error fault) :
      r.ofText (text ++ more) = .error fault := hr.ofText_append h hshape hstops
  refine ⟨?_,hstands Grammar.reader_steady,hstands Settings.reader_steady,
    hstands Pose.reader_steady,hstands (Operation.readerWith_steady _),
    fun keyFault => hstands (Operation.readerWith_steady keyFault),hstands Bounds.reader_steady,
    hstands Drawing.reader_steady⟩
  rw [Grammar.ofText_eq_unreadable_iff,Grammar.ofText_eq_unreadable_iff]
  exact hstands Grammar.reader_steady

/-- Errors can be compared where results cannot. -/
instance decidableEqError {ε α : Type} [DecidableEq ε] (e : ε) :
    (x : Except ε α) → Decidable (x = .error e)
  | .error f => decidable_of_iff (f = e) (Iff.of_eq (Except.error.injEq f e).symm)
  | .ok _ => isFalse nofun

/-- Rules with a key of two symbols, up to the key. -/
def longKey : List Char := "\x7b\"rules\":\x7b\"AB\"".toList

/-- A drawing up to the end of a point with one coordinate. -/
def shortPoint : List Char := "\x7b\"polylines\":[[[1]".toList

/-- An operation up to a key that is a number. -/
def numberedKey : List Char := "\x7b5".toList

theorem beginnings_decide :
    (Grammar.ofText longKey = .error (.unreadable (.notASymbol ['A','B'])) ∧
      Grammar.ofText (longKey ++ " oops".toList) =
        .error (.unreadable (.notASymbol ['A','B']))) ∧
    (Drawing.reader.ofText shortPoint = .error (.tooFew 1 .pair) ∧
      Drawing.reader.ofText (shortPoint ++ ",-".toList) = .error (.tooFew 1 .pair)) ∧
    Operation.describingReader.ofText numberedKey = .error (.wrongType (.whole 5) .identifier) ∧
      Operation.describingReader.ofText (numberedKey ++ ":?".toList) =
        .error (.wrongType (.whole 5) .identifier) := by
  have hkey : Grammar.ofText longKey = .error (.unreadable (.notASymbol ['A','B'])) := by
    decide +kernel
  have hpoint : Drawing.reader.ofText shortPoint = .error (.tooFew 1 .pair) := by decide +kernel
  have hoops : Stops " oops".toList := by simp [Stops,continuesNumeral]
  have hcomma : Stops ",-".toList := by simp [Stops,continuesNumeral]
  have hcolon : Stops ":?".toList := by simp [Stops,continuesNumeral]
  have hnumber : Operation.describingReader.ofText numberedKey =
      .error (.wrongType (.whole 5) .identifier) := by decide +kernel
  have hmessage : (Fault.wrongType (.whole 5) .identifier).message? =
      some "invalid type: integer `5`, expected variant identifier" := by decide +kernel
  exact ⟨⟨hkey,(first_fault_decides rfl hoops).1 hkey⟩,
    ⟨hpoint,(first_fault_decides rfl hcomma).2.2.2.2.2.2.2 hpoint⟩,hnumber,
    (first_fault_decides hmessage hcolon).2.2.2.2.2.1 _ hnumber⟩

end LSystem
