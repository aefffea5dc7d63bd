import LSystem.Json.Fault

/-!
# Readers

A reader takes a value from the head of a sequence of tokens, or reports the first fault that it meets
from left to right. What it takes is never empty, and this is part of its type: lists and members are
then read by recursion on what is left.

The fault of a scalar is reported once the scalar is read, that of an array or an object at its opening
bracket. The end of the tokens is always malformed, whether the text ends there or goes on with what
is no token.
-/
namespace LSystem.Json

structure Reader (α : Type) where
  run : List Token → Except Fault (α × List Token)
  consumes : ∀ {input value rest}, run input = .ok (value,rest) → rest.length < input.length

namespace Reader

variable {α β σ : Type}

/-- A reader with a function applied to what it takes. -/
def map (f : α → β) (r : Reader α) : Reader β where
  run input := (r.run input).map fun a => (f a.1,a.2)
  consumes {input} {value} {rest} h := by
    cases hr : r.run input with
    | error e => rw [hr] at h; exact absurd h (by simp [Except.map])
    | ok a =>
      rw [hr] at h
      simp only [Except.map,Except.ok.injEq,Prod.mk.injEq] at h
      have := r.consumes (show r.run input = .ok (a.1,a.2) from hr)
      rw [← h.2]; exact this

/-- A reader whose values are checked, or completed, once they are read. -/
def check (f : α → Except Fault β) (r : Reader α) : Reader β where
  run input :=
    match r.run input with
    | .error e => .error e
    | .ok (a,rest) => (f a).map fun b => (b,rest)
  consumes {input} {value} {rest} h := by
    split at h
    · exact absurd h (by simp)
    · next a tail hr =>
      cases hf : f a with
      | error e => rw [hf] at h; exact absurd h (by simp [Except.map])
      | ok b =>
        rw [hf] at h
        simp only [Except.map,Except.ok.injEq,Prod.mk.injEq] at h
        rw [← h.2]; exact r.consumes hr

/-- A value that is one token. -/
def token (pick : Token → Option α) (expected : Expected) : Reader α where
  run
    | [] => .error .malformed
    | t :: rest =>
      match pick t with
      | some a => .ok (a,rest)
      | none => .error (t.unlike expected)
  consumes {input} {value} {rest} h := by
    cases input with
    | nil => exact absurd h (by simp)
    | cons t tail =>
      simp only at h
      split at h
      · simp only [Except.ok.injEq,Prod.mk.injEq] at h
        rw [h.2]; exact Nat.lt_succ_self _
      · exact absurd h (by simp)

/-- The characters of a string. -/
def string : Reader (List Char) :=
  token (fun | .string codes => StringBody.scalars? codes | _ => none) .string

/-- A numeral as a double. -/
def number : Reader Float := token (fun | .number n => n.toFloat? | _ => none) .number

/-- The elements of an array from its first one on, up to the closing bracket. -/
def elements (item : Reader α) (input : List Token) : Except Fault (List α × List Token) :=
  match h : item.run input with
  | .error f => .error f
  | .ok (a,.comma :: rest) =>
    have : rest.length + 1 < input.length := item.consumes h
    match elements item rest with
    | .error f => .error f
    | .ok (more,rest) => .ok (a :: more,rest)
  | .ok (a,.closeBracket :: rest) => .ok ([a],rest)
  | .ok _ => .error .malformed
  termination_by input.length

theorem elements_length (item : Reader α) {input rest : List Token} {values : List α}
    (h : elements item input = .ok (values,rest)) : rest.length < input.length := by
  fun_induction elements item input generalizing values rest with
  | case1 => exact absurd h (by simp)
  | case2 => exact absurd h (by simp)
  | case3 input a tail hr hl more rest' he ih =>
    simp only [Except.ok.injEq,Prod.mk.injEq] at h
    have := ih he
    rw [← h.2]; omega
  | case4 input a tail hr =>
    simp only [Except.ok.injEq,Prod.mk.injEq] at h
    have := item.consumes hr
    rw [List.length_cons] at this
    rw [← h.2]; omega
  | case5 => exact absurd h (by simp)

/-- An array of any number of values. -/
def array (item : Reader α) : Reader (List α) where
  run
    | .openBracket :: .closeBracket :: rest => .ok ([],rest)
    | .openBracket :: input => elements item input
    | t :: _ => .error (t.unlike .sequence)
    | [] => .error .malformed
  consumes {input} {value} {rest} h := by
    split at h
    · simp only [Except.ok.injEq,Prod.mk.injEq] at h
      rw [h.2]; simp only [List.length_cons]; omega
    · have := elements_length item h
      rw [List.length_cons]; omega
    · exact absurd h (by simp)
    · exact absurd h (by simp)

/-- Elements for slots of their own, from the first one on, up to the closing bracket. There may be
fewer than slots, and not more. -/
def slots : List (Reader (σ → σ)) → σ → List Token → Except Fault (σ × List Token)
  | [], _, _ => .error .malformed
  | r :: more, s, input =>
    match r.run input with
    | .error f => .error f
    | .ok (set,.comma :: rest) => slots more (set s) rest
    | .ok (set,.closeBracket :: rest) => .ok (set s,rest)
    | .ok _ => .error .malformed

theorem slots_length {readers : List (Reader (σ → σ))} {s t : σ} {input rest : List Token}
    (h : slots readers s input = .ok (t,rest)) : rest.length < input.length := by
  induction readers generalizing s input with
  | nil => exact absurd h (by simp [slots])
  | cons r more ih =>
    unfold slots at h
    split at h
    · exact absurd h (by simp)
    · next hr =>
      have := r.consumes hr
      have := ih h
      simp only [List.length_cons] at *; omega
    · next hr =>
      have := r.consumes hr
      simp only [Except.ok.injEq,Prod.mk.injEq] at h
      rw [List.length_cons] at this
      rw [← h.2]; omega
    · exact absurd h (by simp)

/-- An array with a slot for each element. -/
def tuple (expected : Expected) (readers : List (Reader (σ → σ))) (s : σ) : Reader σ where
  run
    | .openBracket :: .closeBracket :: rest => .ok (s,rest)
    | .openBracket :: input => slots readers s input
    | t :: _ => .error (t.unlike expected)
    | [] => .error .malformed
  consumes {input} {value} {rest} h := by
    split at h
    · simp only [Except.ok.injEq,Prod.mk.injEq] at h
      rw [h.2]; simp only [List.length_cons]; omega
    · have := slots_length h
      rw [List.length_cons]; omega
    · exact absurd h (by simp)
    · exact absurd h (by simp)

/-- One member of an object. Its key decides how the value is read, or is itself at fault, and this
comes before the colon. -/
def member (select : List Char → Except Fault (Reader α)) : Reader α where
  run
    | .string codes :: input =>
      match StringBody.scalars? codes with
      | none => .error .malformed
      | some key =>
        match select key, input with
        | .error f, _ => .error f
        | .ok value, .colon :: input => value.run input
        | .ok _, _ => .error .malformed
    | _ => .error .malformed
  consumes {input} {a} {rest} h := by
    split at h
    · split at h
      · exact absurd h (by simp)
      · split at h
        · exact absurd h (by simp)
        · next value tail _ =>
          have := value.consumes h
          simp only [List.length_cons]; omega
        · exact absurd h (by simp)
    · exact absurd h (by simp)

/-- The members of an object from its first one on, up to the closing brace. Each changes the state in
which the next one is read. -/
def members (select : σ → List Char → Except Fault (Reader σ)) (s : σ) (input : List Token) :
    Except Fault (σ × List Token) :=
  match h : (member (select s)).run input with
  | .error f => .error f
  | .ok (t,.comma :: rest) =>
    have : rest.length + 1 < input.length := (member (select s)).consumes h
    members select t rest
  | .ok (t,.closeBrace :: rest) => .ok (t,rest)
  | .ok _ => .error .malformed
  termination_by input.length

theorem members_length {select : σ → List Char → Except Fault (Reader σ)} {s t : σ}
    {input rest : List Token} (h : members select s input = .ok (t,rest)) :
    rest.length < input.length := by
  fun_induction members select s input with
  | case1 => exact absurd h (by simp)
  | case2 s input u tail hr hl ih =>
    have := ih h
    omega
  | case3 s input u tail hr =>
    simp only [Except.ok.injEq,Prod.mk.injEq] at h
    have := (member (select s)).consumes hr
    rw [List.length_cons] at this
    rw [← h.2]; omega
  | case4 => exact absurd h (by simp)

/-- An object, from the state before its first member to that after its last one. -/
def object (expected : Expected) (select : σ → List Char → Except Fault (Reader σ)) (s : σ) :
    Reader σ where
  run
    | .openBrace :: .closeBrace :: rest => .ok (s,rest)
    | .openBrace :: input => members select s input
    | t :: _ => .error (t.unlike expected)
    | [] => .error .malformed
  consumes {input} {value} {rest} h := by
    split at h
    · simp only [Except.ok.injEq,Prod.mk.injEq] at h
      rw [h.2]; simp only [List.length_cons]; omega
    · have := members_length h
      rw [List.length_cons]; omega
    · exact absurd h (by simp)
    · exact absurd h (by simp)

/-- The value of a text that holds nothing else. -/
def ofText (r : Reader α) (text : List Char) : Except Fault α :=
  let scan := Scan.ofText text
  match r.run scan.tokens with
  | .error f => .error f
  | .ok (a,rest) => if rest = [] ∧ scan.exhausted then .ok a else .error .malformed

end Reader

end LSystem.Json
