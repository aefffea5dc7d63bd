import LSystem.Json.Reader

/-!
# Skipping values

A value that nobody asks for must still be a value. `skip` passes over one in a single run along the
tokens, with the arrays and objects that are still open on a stack, so that any depth of nesting takes
no more than that. Numerals may be of any size here and strings may hold halves of surrogate pairs.
-/
namespace LSystem.Json

/-- An array or an object whose end is still to come. -/
inductive Enclosure where
  | array
  | object
  deriving DecidableEq, Repr

/-- What is due next: a value, or what may follow one. -/
inductive Due where
  | value
  | separator
  deriving DecidableEq, Repr

/-- The tokens after the value that is being passed over. -/
def skipped? : Due → List Enclosure → List Token → Option (List Token)
  | .value, outer, .openBracket :: .closeBracket :: rest => skipped? .separator outer rest
  | .value, outer, .openBracket :: rest => skipped? .value (.array :: outer) rest
  | .value, outer, .openBrace :: .closeBrace :: rest => skipped? .separator outer rest
  | .value, outer, .openBrace :: .string _ :: .colon :: rest =>
    skipped? .value (.object :: outer) rest
  | .value, outer, .null :: rest => skipped? .separator outer rest
  | .value, outer, .boolean _ :: rest => skipped? .separator outer rest
  | .value, outer, .number _ :: rest => skipped? .separator outer rest
  | .value, outer, .string _ :: rest => skipped? .separator outer rest
  | .separator, [], rest => some rest
  | .separator, .array :: outer, .comma :: rest => skipped? .value (.array :: outer) rest
  | .separator, .array :: outer, .closeBracket :: rest => skipped? .separator outer rest
  | .separator, .object :: outer, .comma :: .string _ :: .colon :: rest =>
    skipped? .value (.object :: outer) rest
  | .separator, .object :: outer, .closeBrace :: rest => skipped? .separator outer rest
  | _, _, _ => none

/-- Whatever is skipped, nothing is put back. -/
theorem skipped?_length {due : Due} {outer : List Enclosure} {input rest : List Token}
    (h : skipped? due outer input = some rest) :
    rest.length ≤ input.length ∧ (due = .value → rest.length < input.length) := by
  fun_induction skipped? due outer input with
  | case9 rest' =>
    simp only [Option.some.injEq] at h
    rw [h]; exact ⟨Nat.le_refl _,fun he => absurd he (by simp)⟩
  | case14 => exact absurd h (by simp)
  | _ =>
    rename_i ih
    have := ih h
    simp only [List.length_cons]
    omega

/-- A reader that passes over one value. -/
def Reader.skip : Reader Unit where
  run input :=
    match skipped? .value [] input with
    | some rest => .ok ((),rest)
    | none => .error .malformed
  consumes {input} {_} {rest} h := by
    split at h
    · next hs =>
      simp only [Except.ok.injEq,Prod.mk.injEq] at h
      rw [← h.2]; exact (skipped?_length hs).2 rfl
    · exact absurd h (by simp)

end LSystem.Json
