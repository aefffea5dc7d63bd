import LSystem.Json.Record
import LSystem.Proofs.Json.LongerTexts
import LSystem.Proofs.Json.Reading

/-!
# Steady readers

A reader that has found a value or a fault of shape has seen all the tokens that matter for it. It
is steady if what it finds stays found when the tokens go on, and if it finds nothing where there
are no tokens. Only `malformed` may become something else, since it is also the outcome at the end
of the tokens. Readers made of steady ones are steady, and the fault of shape that a steady reader
finds in a text is that of every longer text, whatever it goes on with (`Steady.ofText_append`).
-/
namespace LSystem.Json

variable {α β δ σ : Type}

/-- The outcome on some tokens and the one when there are more. Only at the end of the tokens can
they differ. -/
def Stands (more : List Token) (before after : Except Fault (α × List Token)) : Prop :=
  before ≠ .error .malformed → after = before.map fun p => (p.1,p.2 ++ more)

namespace Stands

variable {more : List Token} {before after : Except Fault (α × List Token)}

theorem malformed (after : Except Fault (α × List Token)) :
    Stands more (.error .malformed) after := by
  intro hne
  exact absurd rfl hne

theorem error (f : Fault) : Stands (α := α) more (.error f) (.error f) := fun _ => rfl

theorem ok (a : α) (rest : List Token) : Stands more (.ok (a,rest)) (.ok (a,rest ++ more)) :=
  fun _ => rfl

/-- What is done next must stand as well, now with the others behind the tokens that were left. -/
theorem bind (h : Stands more before after)
    {next : α × List Token → Except Fault (β × List Token)}
    (hnext : ∀ a rest, before = .ok (a,rest) →
      Stands more (next (a,rest)) (next (a,rest ++ more))) :
    Stands more (before.bind next) (after.bind next) := by
  intro hne
  cases before with
  | error f =>
    have hf : (.error f : Except Fault (α × List Token)) ≠ .error .malformed := by
      intro he
      cases he
      exact hne rfl
    rw [h hf]
    rfl
  | ok p =>
    rw [h (by simp)]
    exact hnext p.1 p.2 rfl hne

theorem map (h : Stands more before after) (f : α → β) :
    Stands more (before.map fun p => (f p.1,p.2)) (after.map fun p => (f p.1,p.2)) := by
  have hbind : Stands more (before.bind fun p => .ok (f p.1,p.2))
    (after.bind fun p => .ok (f p.1,p.2)) := h.bind fun a rest _ => ok (f a) rest
  cases before <;> cases after <;> exact hbind

/-- A choice by the next token stands if it waits where there is none. -/
theorem next {f : List Token → Except Fault (α × List Token)} (hnil : f [] = .error .malformed)
    (hcons : ∀ t input, Stands more (f (t :: input)) (f (t :: (input ++ more))))
    (input : List Token) : Stands more (f input) (f (input ++ more)) := by
  cases input with
  | nil =>
    rw [hnil]
    exact malformed _
  | cons t input => exact hcons t input

end Stands

namespace Reader

structure Steady (r : Reader α) : Prop where
  waits : r.run [] = .error .malformed
  stands : ∀ input more, Stands more (r.run input) (r.run (input ++ more))

theorem Steady.map {r : Reader α} (h : r.Steady) (f : α → β) : (r.map f).Steady where
  waits := by
    simp only [Reader.map,h.waits]
    rfl
  stands input more := (h.stands input more).map f

theorem Steady.check {r : Reader α} (h : r.Steady) (f : α → Except Fault β) :
    (r.check f).Steady where
  waits := by
    rw [check_run,h.waits]
    rfl
  stands input more := by
    rw [check_run,check_run]
    apply (h.stands input more).bind
    intro a rest _
    cases f a with
    | error e => exact .error e
    | ok b => exact .ok b rest

theorem token_steady (pick : Token → Option α) (expected : Expected) :
    (token pick expected).Steady where
  waits := rfl
  stands input more := by
    apply Stands.next rfl
    intro t rest
    simp only [token]
    cases pick t with
    | none => exact .error _
    | some a => exact .ok a rest

theorem string_steady : string.Steady := token_steady _ _

theorem number_steady : number.Steady := token_steady _ _

theorem skip_steady : skip.Steady where
  waits := by simp [skip,skipped?]
  stands input more := by
    simp only [skip]
    cases hs : skipped? .value [] input with
    | none => exact .malformed _
    | some rest =>
      obtain ⟨v,rfl⟩ := skipped?_eq_some_iff.1 hs
      rw [List.append_assoc,skipped?_eq_some_iff.2 ⟨v,rfl⟩]
      exact .ok () rest

/-- What stands between brackets or braces. With nothing between them it is `empty`. -/
def enclosed (opening closing : Token) (expected : Expected) (empty : α)
    (body : List Token → Except Fault (α × List Token)) :
    List Token → Except Fault (α × List Token)
  | [] => .error .malformed
  | t :: input =>
    if t = opening then
      if input.head? = some closing then .ok (empty,input.tail) else body input
    else .error (t.unlike expected)

theorem enclosed_stands {opening closing : Token} {expected : Expected} {empty : α}
    {body : List Token → Except Fault (α × List Token)} (hwaits : body [] = .error .malformed)
    {more : List Token} (hbody : ∀ input, Stands more (body input) (body (input ++ more)))
    (input : List Token) :
    Stands more (enclosed opening closing expected empty body input)
      (enclosed opening closing expected empty body (input ++ more)) := by
  apply Stands.next rfl
  intro t input
  simp only [enclosed]
  split
  · apply Stands.next (f := fun input =>
      if input.head? = some closing then .ok (empty,input.tail) else body input) hwaits
    intro u input
    by_cases hu : u = closing
    · simp only [List.head?_cons,hu,if_true,List.tail_cons]
      exact .ok empty input
    · simp only [List.head?_cons,Option.some.injEq,hu,if_false]
      exact hbody (u :: input)
  · exact .error _

theorem array_enclosed (item : Reader α) (input : List Token) : (array item).run input =
    enclosed .openBracket .closeBracket .sequence [] (elements item) input := by
  rcases input with _ | ⟨t,_ | ⟨u,input⟩⟩
  · rfl
  · cases t <;> rfl
  · cases t <;> cases u <;> rfl

theorem tuple_enclosed (expected : Expected) (readers : List (Reader (σ → σ))) (s : σ)
    (input : List Token) : (tuple expected readers s).run input =
      enclosed .openBracket .closeBracket expected s (slots readers s) input := by
  rcases input with _ | ⟨t,_ | ⟨u,input⟩⟩
  · rfl
  · cases t <;> rfl
  · cases t <;> cases u <;> rfl

theorem object_enclosed (expected : Expected) (select : σ → List Char → Except Fault (Reader σ))
    (s : σ) (input : List Token) : (object expected select s).run input =
      enclosed .openBrace .closeBrace expected s (members select s) input := by
  rcases input with _ | ⟨t,_ | ⟨u,input⟩⟩
  · rfl
  · cases t <;> rfl
  · cases t <;> cases u <;> rfl

section

variable {item : Reader α} (h : item.Steady)

include h

theorem elements_waits : elements item [] = .error .malformed := by
  rw [elements_eq_bind,h.waits]
  rfl

/-- The induction is on the length, since an item takes tokens and leaves fewer behind the comma. -/
theorem elements_stands (input more : List Token) :
    Stands more (elements item input) (elements item (input ++ more)) := by
  induction hn : input.length using Nat.strong_induction_on generalizing input with
  | _ n ih =>
    rw [elements_eq_bind,elements_eq_bind]
    apply (h.stands input more).bind
    intro a rest hr
    have hlt := item.consumes hr
    cases rest with
    | nil => exact .malformed _
    | cons t rest =>
      rw [List.length_cons] at hlt
      cases t with
      | comma => exact (ih rest.length (by omega) rest rfl).map (a :: ·)
      | closeBracket => exact .ok [a] rest
      | _ => exact .malformed _

theorem array_steady : (array item).Steady where
  waits := rfl
  stands input more := by
    rw [array_enclosed,array_enclosed]
    exact enclosed_stands (elements_waits h) (fun input => elements_stands h input more) input

end

section

variable {readers : List (Reader (σ → σ))} (h : ∀ r ∈ readers, r.Steady)

include h

theorem slots_waits (s : σ) : slots readers s [] = .error .malformed := by
  cases readers with
  | nil => rfl
  | cons r readers =>
    rw [slots_eq_bind,(h r List.mem_cons_self).waits]
    rfl

theorem slots_stands (s : σ) (input more : List Token) :
    Stands more (slots readers s input) (slots readers s (input ++ more)) := by
  induction readers generalizing s input with
  | nil => exact .malformed _
  | cons r readers ih =>
    obtain ⟨hr,hreaders⟩ := List.forall_mem_cons.1 h
    rw [slots_eq_bind,slots_eq_bind]
    apply (hr.stands input more).bind
    intro set rest _
    cases rest with
    | nil => exact .malformed _
    | cons t rest =>
      cases t with
      | comma => exact ih hreaders (set s) rest
      | closeBracket => exact .ok (set s) rest
      | _ => exact .malformed _

theorem tuple_steady (expected : Expected) (s : σ) : (tuple expected readers s).Steady where
  waits := rfl
  stands input more := by
    rw [tuple_enclosed,tuple_enclosed]
    exact enclosed_stands (slots_waits h s) (fun input => slots_stands h s input more) input

end

theorem member_steady {select : List Char → Except Fault (Reader α)}
    (h : ∀ key r, select key = .ok r → r.Steady) : (member select).Steady where
  waits := rfl
  stands input more := by
    apply Stands.next rfl
    intro t input
    cases t with
    | string codes =>
      simp only [member]
      cases StringBody.scalars? codes with
      | none => exact .malformed _
      | some key =>
        simp only
        cases hkey : select key with
        | error f => exact .error f
        | ok r =>
          cases input with
          | nil => exact .malformed _
          | cons u input =>
            cases u with
            | colon => exact (h key r hkey).stands input more
            | _ => exact .malformed _
    | _ => exact .malformed _

theorem members_waits (select : σ → List Char → Except Fault (Reader σ)) (s : σ) :
    members select s [] = .error .malformed := by
  rw [members_eq_bind]
  rfl

section

variable {select : σ → List Char → Except Fault (Reader σ)}
  (h : ∀ s key r, select s key = .ok r → r.Steady)

include h

theorem members_stands (s : σ) (input more : List Token) :
    Stands more (members select s input) (members select s (input ++ more)) := by
  induction hn : input.length using Nat.strong_induction_on generalizing s input with
  | _ n ih =>
    rw [members_eq_bind,members_eq_bind]
    apply ((member_steady (h s)).stands input more).bind
    intro t rest hr
    have hlt := (member (select s)).consumes hr
    cases rest with
    | nil => exact .malformed _
    | cons u rest =>
      rw [List.length_cons] at hlt
      cases u with
      | comma => exact ih rest.length (by omega) t rest rfl
      | closeBrace => exact .ok t rest
      | _ => exact .malformed _

theorem object_steady (expected : Expected) (s : σ) : (object expected select s).Steady where
  waits := rfl
  stands input more := by
    rw [object_enclosed,object_enclosed]
    exact enclosed_stands (members_waits select s) (fun input => members_stands h s input more) input

end

/-- A fault of shape stands however the text goes on. What a text has left behind a value has no shape to
be at fault. -/
theorem Steady.ofText_append {r : Reader α} (h : r.Steady) {text more : List Char} {f : Fault}
    (hf : r.ofText text = .error f) (hshape : f ≠ .malformed) (hm : Stops more) :
    r.ofText (text ++ more) = .error f := by
  obtain ⟨tokens,htokens⟩ := Scan.tokens_isPrefix text hm
  have hstands := h.stands (Scan.ofText text).tokens tokens
  unfold ofText at hf ⊢
  cases hr : r.run (Scan.ofText text).tokens with
  | error e =>
    simp only [hr] at hf
    cases hf
    rw [hr] at hstands
    simp only [← htokens,hstands (by simpa using hshape)]
    rfl
  | ok p =>
    simp only [hr] at hf
    split at hf
    · exact absurd hf (by simp)
    · exact absurd (Except.error.inj hf).symm hshape

end Reader

theorem Record.select_steady {r : Record δ α} (h : ∀ f ∈ r.fields, f.reader.Steady) (d : δ)
    (key : List Char) (s : Reader δ) (hs : r.select d key = .ok s) : s.Steady := by
  unfold select at hs
  split at hs
  · cases hs
    exact Reader.skip_steady.map _
  · next f hfind =>
    split at hs
    · exact absurd hs (by simp)
    · cases hs
      exact (h f (List.mem_of_find?_eq_some hfind)).map _

theorem Record.reader_steady {r : Record δ α} (h : ∀ f ∈ r.fields, f.reader.Steady) :
    r.reader.Steady := by
  have hkeyed : r.keyed.Steady := Reader.object_steady (select_steady h) r.shape r.blank
  have hpositional : r.positional.Steady :=
    Reader.tuple_steady (List.forall_mem_map.2 h) r.shape r.blank
  refine Reader.Steady.check ⟨rfl,fun input more => ?_⟩ _
  apply Stands.next rfl
  intro t input
  have hobject := (hkeyed.map (Form.keyed,·)).stands (t :: input) more
  have harray := (hpositional.map (Form.positional,·)).stands (t :: input) more
  cases t with
  | openBracket => exact harray
  | _ => exact hobject

end LSystem.Json
