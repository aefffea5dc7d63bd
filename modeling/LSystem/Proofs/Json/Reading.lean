import LSystem.Proofs.Json.Skipping

/-!
# Exact readers

A reader is exact for a relation between values and results if it takes the tokens of one value
that is so related to its result, whatever tokens come after them, and succeeds on nothing else.
Exactness goes from the parts of a reader to the whole, and for an exact reader the texts that it
accepts are those that spell a value of its kind (`Exact.ofText_eq_ok_iff`).
-/
namespace LSystem.Json

namespace Value

def IsString (v : Value) (s : List Char) : Prop :=
  ∃ codes, v = .string codes ∧ StringBody.Denotes codes s

/-- Members with the characters of their names. -/
def Named : List (List Nat × Value) → List (List Char × Value) → Prop :=
  List.Forall₂ fun m n => StringBody.Denotes m.1 n.1 ∧ m.2 = n.2

def IsObject (v : Value) (members : List (List Char × Value)) : Prop :=
  ∃ raw, v = .object raw ∧ Named raw members

end Value

open Value (Named)

namespace Reader

variable {α β σ : Type}

def Exact (r : Reader α) (P : Value → α → Prop) : Prop :=
  ∀ input a rest, r.run input = .ok (a,rest) ↔ ∃ v, P v a ∧ input = v.tokens ++ rest

theorem Exact.congr {r : Reader α} {P Q : Value → α → Prop} (h : r.Exact P)
    (hpq : ∀ v a, P v a ↔ Q v a) : r.Exact Q := by
  intro input a rest
  simp only [h input a rest,hpq]

/-- The reader takes all the tokens of the value. -/
def Takes (r : Reader α) (v : Value) (a : α) : Prop := r.run v.tokens = .ok (a,[])

/-- What an exact reader takes of a value it takes whatever comes after it. -/
theorem Exact.takes {r : Reader α} {P : Value → α → Prop} (h : r.Exact P) : r.Exact r.Takes := by
  intro input a rest
  constructor
  · intro hr
    obtain ⟨v,hv,rfl⟩ := (h input a rest).1 hr
    exact ⟨v,(h v.tokens a []).2 ⟨v,hv,(List.append_nil _).symm⟩,rfl⟩
  · intro hx
    rcases hx with ⟨v,hv,rfl⟩
    obtain ⟨w,hw,htokens⟩ := (h v.tokens a []).1 hv
    rw [List.append_nil] at htokens
    exact (h _ a rest).2 ⟨w,hw,by rw [htokens]⟩

theorem takes_map_iff {r : Reader α} {f : α → β} {v : Value} {b : β} :
    (r.map f).Takes v b ↔ ∃ a, r.Takes v a ∧ f a = b := by
  simp only [Takes,Reader.map]
  cases r.run v.tokens with
  | error e => simp [Except.map]
  | ok p =>
    rcases p with ⟨a,rest⟩
    simp only [Except.map,Except.ok.injEq,Prod.mk.injEq]
    constructor
    · intro hx
      exact ⟨a,⟨rfl,hx.2⟩,hx.1⟩
    · intro hx
      rcases hx with ⟨c,⟨rfl,hrest⟩,hb⟩
      exact ⟨hb,hrest⟩

theorem check_run (r : Reader α) (f : α → Except Fault β) (input : List Token) :
    (r.check f).run input = (r.run input).bind fun p => (f p.1).map fun b => (b,p.2) := by
  simp only [Reader.check]
  cases r.run input <;> rfl

theorem Exact.check {r : Reader α} {P : Value → α → Prop} (h : r.Exact P)
    (f : α → Except Fault β) : (r.check f).Exact fun v b => ∃ a, P v a ∧ f a = .ok b := by
  intro input b rest
  constructor
  · intro hb
    cases hr : r.run input with
    | error e =>
      simp only [Reader.check,hr] at hb
      exact absurd hb (by simp)
    | ok result =>
      rcases result with ⟨a,tail⟩
      obtain ⟨v,hv,hi⟩ := (h input a tail).1 hr
      cases hf : f a with
      | error e =>
        simp only [Reader.check,hr,hf] at hb
        exact absurd hb (by simp [Except.map])
      | ok c =>
        simp only [Reader.check,hr,hf,Except.map,Except.ok.injEq,Prod.mk.injEq] at hb
        rcases hb with ⟨rfl,rfl⟩
        exact ⟨v,⟨a,hv,hf⟩,hi⟩
  · intro hx
    rcases hx with ⟨v,⟨a,hv,hf⟩,hi⟩
    simp only [Reader.check,(h input a rest).2 ⟨v,hv,hi⟩,hf,Except.map]

theorem Exact.map {r : Reader α} {P : Value → α → Prop} (h : r.Exact P) (f : α → β) :
    (r.map f).Exact fun v b => ∃ a, P v a ∧ f a = b := by
  intro input b rest
  have hrun : (r.map f).run input = (r.check fun a => .ok (f a)).run input := by
    simp only [Reader.map,Reader.check]
    cases r.run input <;> rfl
  rw [hrun,h.check _ input b rest]
  simp only [Except.ok.injEq]

/-- A token that is picked is all of its value. -/
theorem token_exact {pick : Token → Option α} {P : Value → α → Prop} (expected : Expected)
    (hp : ∀ t a, pick t = some a → ∃ v, P v a ∧ v.tokens = [t])
    (hv : ∀ v a, P v a → ∃ t, v.tokens = [t] ∧ pick t = some a) :
    (token pick expected).Exact P := by
  intro input a rest
  constructor
  · intro h
    unfold token at h
    cases input with
    | nil => exact absurd h (by simp)
    | cons t tail =>
      simp only at h
      split at h
      · next hpick =>
        simp only [Except.ok.injEq,Prod.mk.injEq] at h
        rcases h with ⟨rfl,rfl⟩
        obtain ⟨v,hpv,ht⟩ := hp t _ hpick
        exact ⟨v,hpv,by rw [ht,List.singleton_append]⟩
      · exact absurd h (by simp)
  · intro hx
    rcases hx with ⟨v,hpv,rfl⟩
    obtain ⟨t,ht,hpick⟩ := hv v a hpv
    simp only [token,ht,List.singleton_append,hpick]

theorem string_exact : string.Exact Value.IsString := by
  apply token_exact .string
  · intro t s hpick
    split at hpick
    · next codes =>
      exact ⟨.string codes,⟨codes,rfl,StringBody.scalars?_eq_some_iff.1 hpick⟩,rfl⟩
    · exact absurd hpick (by simp)
  · intro v s hs
    rcases hs with ⟨codes,rfl,hd⟩
    exact ⟨.string codes,rfl,StringBody.scalars?_eq_some_iff.2 hd⟩

theorem number_exact : number.Exact number.Takes := by
  apply Exact.takes (token_exact .number ?_ fun _ _ hv => hv)
  intro t x hpick
  split at hpick
  · next n => exact ⟨.number n,⟨.number n,rfl,hpick⟩,rfl⟩
  · exact absurd hpick (by simp)

theorem skip_exact : skip.Exact fun _ _ => True := by
  intro input _ rest
  have h : skipped? .value [] input = some rest ↔ _ := skipped?_eq_some_iff
  simp only [skip,true_and,← h]
  cases skipped? .value [] input <;> simp

theorem elements_eq_bind (item : Reader α) (input : List Token) :
    elements item input = (item.run input).bind fun
      | (a,.comma :: rest) => (elements item rest).map fun r => (a :: r.1,r.2)
      | (a,.closeBracket :: rest) => .ok ([a],rest)
      | _ => .error .malformed := by
  rw [elements]
  split
  · next h => rw [h,Except.bind]
  · next a rest h =>
    simp only [h,Except.bind]
    cases elements item rest <;> rfl
  · next h => rw [h,Except.bind]
  · next p hcomma hclose h =>
    rw [h,Except.bind]
    split
    · next a rest => exact (hcomma a rest rfl).elim
    · next a rest => exact (hclose a rest rfl).elim
    · rfl

theorem elements_eq_ok_iff {item : Reader α} {P : Value → α → Prop} (he : item.Exact P)
    {input rest : List Token} {l : List α} :
    elements item input = .ok (l,rest) ↔ ∃ items, items ≠ [] ∧ List.Forall₂ P items l ∧
      input = separated (items.map Value.tokens) ++ .closeBracket :: rest := by
  constructor
  · intro h
    fun_induction elements item input generalizing l rest with
    | case1 => exact absurd h (by simp)
    | case2 => exact absurd h (by simp)
    | case3 input a tail hrun _ more tail' hmore ih =>
      simp only [Except.ok.injEq,Prod.mk.injEq] at h
      rcases h with ⟨rfl,rfl⟩
      obtain ⟨v,hv,rfl⟩ := (he input a _).1 hrun
      obtain ⟨items,hne,hitems,rfl⟩ := ih hmore
      obtain ⟨w,items,rfl⟩ := List.exists_cons_of_ne_nil hne
      refine ⟨v :: w :: items,by simp,.cons hv hitems,?_⟩
      simp only [List.map_cons,separated_cons_cons,List.append_assoc,List.cons_append]
    | case4 input a tail hrun =>
      simp only [Except.ok.injEq,Prod.mk.injEq] at h
      rcases h with ⟨rfl,rfl⟩
      obtain ⟨v,hv,rfl⟩ := (he input a _).1 hrun
      refine ⟨[v],by simp,.cons hv .nil,?_⟩
      simp [separated]
    | case5 => exact absurd h (by simp)
  · intro hx
    rcases hx with ⟨items,hne,hitems,rfl⟩
    induction hitems with
    | nil => exact absurd rfl hne
    | @cons v a items l hv hitems ih =>
      rw [elements_eq_bind]
      cases items with
      | nil =>
        cases hitems
        have hrun := (he _ a (.closeBracket :: rest)).2 ⟨v,hv,rfl⟩
        rw [List.map_singleton,separated,List.intercalate_singleton,hrun]
        rfl
      | cons w items =>
        have hmore := ih (by simp)
        rw [List.map_cons] at hmore
        have hrun := (he _ a (.comma :: (separated (w.tokens :: items.map Value.tokens) ++
          .closeBracket :: rest))).2 ⟨v,hv,rfl⟩
        rw [List.map_cons,List.map_cons,separated_cons_cons,List.append_assoc,List.cons_append,hrun]
        simp only [Except.bind,hmore]
        rfl

theorem array_run (item : Reader α) {t : Token} (ht : t ≠ .closeBracket) (input : List Token) :
    (array item).run (.openBracket :: t :: input) = elements item (t :: input) := by
  simp [array,ht]

theorem array_exact {item : Reader α} {P : Value → α → Prop} (he : item.Exact P) :
    (array item).Exact fun v l => ∃ items, v = .array items ∧ List.Forall₂ P items l := by
  intro input l rest
  constructor
  · intro h
    unfold array at h
    simp only at h
    split at h
    · simp only [Except.ok.injEq,Prod.mk.injEq] at h
      rcases h with ⟨rfl,rfl⟩
      exact ⟨.array [],⟨[],rfl,.nil⟩,rfl⟩
    · obtain ⟨items,_,hitems,rfl⟩ := (elements_eq_ok_iff he).1 h
      refine ⟨.array items,⟨items,rfl,hitems⟩,?_⟩
      rw [Value.tokens_array,arrayTokens_append]
    · exact absurd h (by simp)
    · exact absurd h (by simp)
  · intro hx
    rcases hx with ⟨_,⟨items,rfl,hitems⟩,rfl⟩
    rw [Value.tokens_array,arrayTokens_append]
    cases items with
    | nil =>
      cases hitems
      rfl
    | cons v items =>
      have helements : elements item (_ ++ .closeBracket :: rest) = .ok (l,rest) :=
        (elements_eq_ok_iff he).2 ⟨v :: items,by simp,hitems,rfl⟩
      obtain ⟨t,more,ht,hne,_⟩ := v.tokens_head
      simp only [List.map_cons,separated_cons,ht,List.cons_append] at helements ⊢
      rw [array_run item hne,helements]

theorem slots_eq_bind (r : Reader (σ → σ)) (readers : List (Reader (σ → σ))) (s : σ)
    (input : List Token) :
    slots (r :: readers) s input = (r.run input).bind fun
      | (set,.comma :: rest) => slots readers (set s) rest
      | (set,.closeBracket :: rest) => .ok (set s,rest)
      | _ => .error .malformed := by
  rw [slots]
  cases r.run input with
  | error f => rfl
  | ok p =>
    rcases p with ⟨set,rest⟩
    rcases rest with _ | ⟨t,rest⟩
    · rfl
    · cases t <;> rfl

/-- The items of an array set what their slots are for, from the first one on. -/
inductive Slots : List (Value → (σ → σ) → Prop) → σ → List Value → σ → Prop
  | nil {relations : List (Value → (σ → σ) → Prop)} {s : σ} : Slots relations s [] s
  | cons {P : Value → (σ → σ) → Prop} {relations : List (Value → (σ → σ) → Prop)} {s t : σ}
      {set : σ → σ} {v : Value} {items : List Value} (hv : P v set)
      (h : Slots relations (set s) items t) : Slots (P :: relations) s (v :: items) t

theorem slots_eq_ok_iff {readers : List (Reader (σ → σ))}
    {relations : List (Value → (σ → σ) → Prop)} (he : List.Forall₂ Exact readers relations)
    {s t : σ} {input rest : List Token} :
    slots readers s input = .ok (t,rest) ↔ ∃ items, items ≠ [] ∧ Slots relations s items t ∧
      input = separated (items.map Value.tokens) ++ .closeBracket :: rest := by
  induction he generalizing s input with
  | nil =>
    constructor
    · intro h
      exact absurd h (by simp [slots])
    · intro hx
      rcases hx with ⟨items,hne,hs,_⟩
      cases hs
      exact absurd rfl hne
  | @cons r P readers relations hr _ ih =>
    constructor
    · intro h
      unfold slots at h
      split at h
      · exact absurd h (by simp)
      · next set tail hrun =>
        obtain ⟨v,hv,rfl⟩ := (hr input set _).1 hrun
        obtain ⟨items,hne,hs,rfl⟩ := ih.1 h
        obtain ⟨w,items,rfl⟩ := List.exists_cons_of_ne_nil hne
        refine ⟨v :: w :: items,by simp,.cons hv hs,?_⟩
        simp only [List.map_cons,separated_cons_cons,List.append_assoc,List.cons_append]
      · next set tail hrun =>
        simp only [Except.ok.injEq,Prod.mk.injEq] at h
        rcases h with ⟨rfl,rfl⟩
        obtain ⟨v,hv,rfl⟩ := (hr input set _).1 hrun
        refine ⟨[v],by simp,.cons hv .nil,?_⟩
        simp [separated]
      · exact absurd h (by simp)
    · intro hx
      rcases hx with ⟨items,hne,hs,rfl⟩
      cases hs with
      | nil => exact absurd rfl hne
      | @cons _ _ _ _ set v items hv hs =>
        unfold slots
        cases items with
        | nil =>
          have hrun := (hr _ set (.closeBracket :: rest)).2 ⟨v,hv,rfl⟩
          cases hs
          simp only [List.map_cons,List.map_nil,separated,List.intercalate_singleton,hrun]
        | cons w items =>
          have hmore := ih.2 ⟨w :: items,by simp,hs,rfl⟩
          have hrun := (hr _ set (.comma :: (separated ((w :: items).map Value.tokens) ++
            .closeBracket :: rest))).2 ⟨v,hv,rfl⟩
          simp only [List.map_cons,separated_cons_cons,List.append_assoc,List.cons_append] at *
          simp only [hrun,hmore]

theorem tuple_run (expected : Expected) (readers : List (Reader (σ → σ))) (s : σ) {t : Token}
    (ht : t ≠ .closeBracket) (input : List Token) :
    (tuple expected readers s).run (.openBracket :: t :: input) = slots readers s (t :: input) := by
  simp [tuple,ht]

theorem tuple_exact {readers : List (Reader (σ → σ))}
    {relations : List (Value → (σ → σ) → Prop)} (he : List.Forall₂ Exact readers relations)
    (expected : Expected) (s : σ) :
    (tuple expected readers s).Exact fun v t => ∃ items, v = .array items ∧
      Slots relations s items t := by
  intro input t rest
  constructor
  · intro h
    unfold tuple at h
    simp only at h
    split at h
    · simp only [Except.ok.injEq,Prod.mk.injEq] at h
      rcases h with ⟨rfl,rfl⟩
      exact ⟨.array [],⟨[],rfl,.nil⟩,rfl⟩
    · obtain ⟨items,_,hs,rfl⟩ := (slots_eq_ok_iff he).1 h
      refine ⟨.array items,⟨items,rfl,hs⟩,?_⟩
      rw [Value.tokens_array,arrayTokens_append]
    · exact absurd h (by simp)
    · exact absurd h (by simp)
  · intro hx
    rcases hx with ⟨_,⟨items,rfl,hs⟩,rfl⟩
    rw [Value.tokens_array,arrayTokens_append]
    cases items with
    | nil =>
      cases hs
      rfl
    | cons v items =>
      have hslots : slots readers s (_ ++ .closeBracket :: rest) = .ok (t,rest) :=
        (slots_eq_ok_iff he).2 ⟨v :: items,by simp,hs,rfl⟩
      obtain ⟨u,more,hu,hne,_⟩ := v.tokens_head
      simp only [List.map_cons,separated_cons,hu,List.cons_append] at hslots ⊢
      rw [tuple_run expected readers s hne,hslots]

/-- The way to read a member is exact for its name, and a name that has none stands for nothing. -/
def Selects (select : List Char → Except Fault (Reader α)) (P : List Char → Value → α → Prop) :
    Prop :=
  ∀ key, match select key with
    | .ok r => r.Exact (P key)
    | .error _ => ∀ v a, ¬P key v a

/-- The members of an object change the state one after another. -/
inductive Steps (P : σ → List Char → Value → σ → Prop) : σ → List (List Char × Value) → σ → Prop
  | nil {s : σ} : Steps P s [] s
  | cons {s t u : σ} {key : List Char} {v : Value} {members : List (List Char × Value)}
      (hv : P s key v t) (h : Steps P t members u) : Steps P s ((key,v) :: members) u

theorem steps_nil_iff {P : σ → List Char → Value → σ → Prop} {s t : σ} :
    Steps P s [] t ↔ t = s := by
  constructor
  · intro h
    cases h
    rfl
  · intro hx
    subst hx
    exact .nil

theorem steps_cons_iff {P : σ → List Char → Value → σ → Prop} {s u : σ} {key : List Char}
    {v : Value} {members : List (List Char × Value)} :
    Steps P s ((key,v) :: members) u ↔ ∃ t, P s key v t ∧ Steps P t members u := by
  constructor
  · intro h
    cases h with
    | cons hv h => exact ⟨_,hv,h⟩
  · intro hx
    rcases hx with ⟨t,hv,h⟩
    exact .cons hv h

theorem member_eq_ok_iff {select : List Char → Except Fault (Reader α)}
    {P : List Char → Value → α → Prop} (he : Selects select P) {input rest : List Token} {a : α} :
    (member select).run input = .ok (a,rest) ↔ ∃ codes key v, StringBody.Denotes codes key ∧
      P key v a ∧ input = Value.memberTokens (codes,v) ++ rest := by
  constructor
  · intro h
    unfold member at h
    simp only at h
    split at h
    · next codes input =>
      split at h
      · exact absurd h (by simp)
      · next key hk =>
        have hkey := he key
        split at h
        · exact absurd h (by simp)
        · next r input hr =>
          rw [hr] at hkey
          obtain ⟨v,hv,rfl⟩ := (hkey input a rest).1 h
          exact ⟨codes,key,v,StringBody.scalars?_eq_some_iff.1 hk,hv,rfl⟩
        · exact absurd h (by simp)
    · exact absurd h (by simp)
  · intro hx
    rcases hx with ⟨codes,key,v,hd,hv,rfl⟩
    have hkey := he key
    cases hr : select key with
    | error f =>
      rw [hr] at hkey
      exact absurd hv (hkey v a)
    | ok r =>
      rw [hr] at hkey
      have hrun := (hkey (v.tokens ++ rest) a rest).2 ⟨v,hv,rfl⟩
      simp only [member,Value.memberTokens,List.cons_append,
        StringBody.scalars?_eq_some_iff.2 hd,hr,hrun]

theorem members_eq_bind (select : σ → List Char → Except Fault (Reader σ)) (s : σ)
    (input : List Token) :
    members select s input = ((member (select s)).run input).bind fun
      | (t,.comma :: rest) => members select t rest
      | (t,.closeBrace :: rest) => .ok (t,rest)
      | _ => .error .malformed := by
  rw [members]
  split
  · next h => rw [h,Except.bind]
  · next h => simp only [h,Except.bind]
  · next h => rw [h,Except.bind]
  · next p hcomma hclose h =>
    rw [h,Except.bind]
    split
    · next t rest => exact (hcomma t rest rfl).elim
    · next t rest => exact (hclose t rest rfl).elim
    · rfl

section

variable {select : σ → List Char → Except Fault (Reader σ)} {s t : σ} {input rest : List Token}

theorem members_next (h : (member (select s)).run input = .ok (t,.comma :: rest)) :
    members select s input = members select t rest := by
  rw [members_eq_bind,h]
  rfl

theorem members_last (h : (member (select s)).run input = .ok (t,.closeBrace :: rest)) :
    members select s input = .ok (t,rest) := by
  rw [members_eq_bind,h]
  rfl

variable {P : σ → List Char → Value → σ → Prop}

theorem members_eq_ok_iff (he : ∀ s, Selects (select s) (P s)) :
    members select s input = .ok (t,rest) ↔ ∃ raw named, raw ≠ [] ∧ Named raw named ∧
      Steps P s named t ∧
        input = separated (raw.map Value.memberTokens) ++ .closeBrace :: rest := by
  constructor
  · intro h
    fun_induction members select s input with
    | case1 => exact absurd h (by simp)
    | case2 s input u tail hrun _ ih =>
      obtain ⟨codes,key,v,hd,hv,rfl⟩ := (member_eq_ok_iff (he s)).1 hrun
      obtain ⟨raw,named,hne,hn,hs,rfl⟩ := ih h
      obtain ⟨m,raw,rfl⟩ := List.exists_cons_of_ne_nil hne
      refine ⟨(codes,v) :: m :: raw,(key,v) :: named,by simp,.cons ⟨hd,rfl⟩ hn,.cons hv hs,?_⟩
      simp only [List.map_cons,separated_cons_cons,List.append_assoc,List.cons_append]
    | case3 s input u tail hrun =>
      simp only [Except.ok.injEq,Prod.mk.injEq] at h
      rcases h with ⟨rfl,rfl⟩
      obtain ⟨codes,key,v,hd,hv,rfl⟩ := (member_eq_ok_iff (he s)).1 hrun
      refine ⟨[(codes,v)],[(key,v)],by simp,.cons ⟨hd,rfl⟩ .nil,.cons hv .nil,?_⟩
      simp [separated]
    | case4 => exact absurd h (by simp)
  · intro hx
    rcases hx with ⟨raw,named,hne,hn,hs,rfl⟩
    induction hn generalizing s with
    | nil => exact absurd rfl hne
    | @cons m n raw named hmn hn ih =>
      rcases m with ⟨codes,v⟩
      rcases n with ⟨key,w⟩
      obtain ⟨hd,rfl⟩ : StringBody.Denotes codes key ∧ v = w := hmn
      cases hs with
      | @cons _ u _ _ _ _ hv hs =>
        cases hn with
        | nil =>
          cases hs
          rw [List.map_singleton,separated,List.intercalate_singleton]
          exact members_last ((member_eq_ok_iff (he s)).2 ⟨codes,key,v,hd,hv,rfl⟩)
        | @cons m n raw named hmn hn =>
          rw [List.map_cons,List.map_cons,separated_cons_cons,List.append_assoc,List.cons_append]
          rw [members_next ((member_eq_ok_iff (he s)).2 ⟨codes,key,v,hd,hv,rfl⟩)]
          exact ih (by simp) hs

theorem object_exact (he : ∀ s, Selects (select s) (P s)) (expected : Expected) (s : σ) :
    (object expected select s).Exact fun v t => ∃ named, v.IsObject named ∧ Steps P s named t := by
  intro input t rest
  constructor
  · intro h
    unfold object at h
    simp only at h
    split at h
    · simp only [Except.ok.injEq,Prod.mk.injEq] at h
      rcases h with ⟨rfl,rfl⟩
      exact ⟨.object [],⟨[],⟨[],rfl,.nil⟩,.nil⟩,rfl⟩
    · obtain ⟨raw,named,_,hn,hs,rfl⟩ := (members_eq_ok_iff he).1 h
      refine ⟨.object raw,⟨named,⟨raw,rfl,hn⟩,hs⟩,?_⟩
      rw [Value.tokens_object,objectTokens_append]
    · exact absurd h (by simp)
    · exact absurd h (by simp)
  · intro hx
    rcases hx with ⟨_,⟨named,⟨raw,rfl,hn⟩,hs⟩,rfl⟩
    rw [Value.tokens_object,objectTokens_append]
    cases raw with
    | nil =>
      cases hn
      cases hs
      rfl
    | cons m raw =>
      have hmembers : members select s (_ ++ .closeBrace :: rest) = .ok (t,rest) :=
        (members_eq_ok_iff he).2 ⟨m :: raw,named,by simp,hn,hs,rfl⟩
      rw [List.map_cons,separated_cons,Value.memberTokens] at hmembers ⊢
      exact hmembers

end

theorem ofText_map {r : Reader α} {text : List Char} {a : α} (h : r.ofText text = .ok a)
    (f : α → β) : (r.map f).ofText text = .ok (f a) := by
  simp only [ofText] at h
  split at h
  · exact absurd h (by simp)
  · next b rest hrun =>
    split at h
    · next hend =>
      have heq := Except.ok.inj h
      subst heq
      simp only [ofText,Reader.map,hrun,Except.map,hend,and_self,if_true]
    · exact absurd h (by simp)

/-- The texts of an exact reader are the spellings of its values. -/
theorem Exact.ofText_eq_ok_iff {r : Reader α} {P : Value → α → Prop} (h : r.Exact P)
    {text : List Char} {a : α} :
    r.ofText text = .ok a ↔ ∃ v, P v a ∧ Spells text v.tokens := by
  constructor
  · intro ha
    unfold ofText at ha
    simp only at ha
    split at ha
    · exact absurd ha (by simp)
    · next b rest hrun =>
      split at ha
      · next hend =>
        have heq := Except.ok.inj ha
        subst heq
        obtain ⟨v,hv,ht⟩ := (h _ b rest).1 hrun
        rw [hend.1,List.append_nil] at ht
        refine ⟨v,hv,Scan.spells_of_ofText ?_⟩
        rw [← ht,← hend.2]
      · exact absurd ha (by simp)
  · intro hx
    rcases hx with ⟨v,hv,hs⟩
    have hscan := Scan.ofText_of_spells hs v.separate_tokens
    have hrun := (h v.tokens a []).2 ⟨v,hv,(List.append_nil _).symm⟩
    simp only [ofText,hscan,hrun,and_self,if_true]

end Reader

end LSystem.Json
