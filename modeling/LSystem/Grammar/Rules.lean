import LSystem.Word

/-!
# Tables of rules

A table assigns a replacement to some symbols, at most one to each. Its entries are listed by
increasing code point, so a table is determined by what it assigns (`Rules.ext_find?`) whatever the
order in which its rules were given, and of two rules for one symbol the later counts
(`Rules.find?_insert`).
-/
namespace LSystem

/-- Rules in strictly increasing order of their symbols. -/
structure Rules where
  entries : List (Symbol × Word)
  sorted : entries.Pairwise fun a b => a.1 < b.1

namespace Rules

/-- A rule added to a sorted list. It replaces the rule of the same symbol. -/
def insertEntry (c : Symbol) (w : Word) : List (Symbol × Word) → List (Symbol × Word)
  | [] => [(c,w)]
  | e :: rest =>
    if c < e.1 then (c,w) :: e :: rest
    else if c = e.1 then (c,w) :: rest
    else e :: insertEntry c w rest

theorem mem_insertEntry {c : Symbol} {w : Word} {l : List (Symbol × Word)} {e : Symbol × Word}
    (h : e ∈ insertEntry c w l) : e = (c,w) ∨ e ∈ l := by
  induction l with
  | nil => exact .inl (List.mem_singleton.1 h)
  | cons d rest ih =>
    unfold insertEntry at h
    split at h
    · exact List.mem_cons.1 h
    · split at h
      · exact (List.mem_cons.1 h).imp id (List.mem_cons_of_mem _)
      · rcases List.mem_cons.1 h with rfl | h
        · exact .inr List.mem_cons_self
        · exact (ih h).imp id (List.mem_cons_of_mem _)

theorem lt_of_not_lt_of_ne {c d : Symbol} (h : ¬c < d) (hn : c ≠ d) : d < c :=
  Std.lt_of_le_of_ne (Std.not_lt.1 h) (Ne.symm hn)

theorem pairwise_insertEntry {c : Symbol} {w : Word} {l : List (Symbol × Word)}
    (h : l.Pairwise fun a b => a.1 < b.1) : (insertEntry c w l).Pairwise fun a b => a.1 < b.1 := by
  induction l with
  | nil => exact List.pairwise_singleton _ _
  | cons d rest ih =>
    obtain ⟨hd,hr⟩ := List.pairwise_cons.1 h
    unfold insertEntry
    split
    · next hlt =>
      refine List.pairwise_cons.2 ⟨fun e he => ?_,h⟩
      rcases List.mem_cons.1 he with rfl | he
      · exact hlt
      · exact Std.lt_trans hlt (hd e he)
    · next hlt =>
      split
      · next heq => exact List.pairwise_cons.2 ⟨fun e he => heq ▸ hd e he,hr⟩
      · next hne =>
        refine List.pairwise_cons.2 ⟨fun e he => ?_,ih hr⟩
        rcases mem_insertEntry he with rfl | he
        · exact lt_of_not_lt_of_ne hlt hne
        · exact hd e he

instance : EmptyCollection Rules := ⟨⟨[],.nil⟩⟩

/-- The table with one more rule, which replaces an earlier one for its symbol. -/
def insert (r : Rules) (c : Symbol) (w : Word) : Rules where
  entries := insertEntry c w r.entries
  sorted := pairwise_insertEntry r.sorted

/-- The replacement of a symbol, if it has a rule. -/
def find? (r : Rules) (c : Symbol) : Option Word := r.entries.lookup c

/-- The table that lists of rules, given in order, leave behind. -/
def ofList (rules : List (Symbol × Word)) : Rules := rules.foldl (fun r e => r.insert e.1 e.2) ∅

@[simp] theorem find?_empty (c : Symbol) : (∅ : Rules).find? c = none := rfl

theorem lookup_cons_eq_ite (e : Symbol × Word) (l : List (Symbol × Word)) (c : Symbol) :
    (e :: l).lookup c = if c = e.1 then some e.2 else l.lookup c := by
  obtain ⟨d,w⟩ := e
  by_cases h : c = d
  · simp [h]
  · simp [List.lookup_cons,beq_eq_false_iff_ne.2 h,h]

theorem lookup_eq_none_of_forall_lt {c : Symbol} {l : List (Symbol × Word)}
    (h : ∀ e ∈ l, c < e.1) : l.lookup c = none := by
  induction l with
  | nil => rfl
  | cons d rest ih =>
    have hc : c ≠ d.1 := fun e => Std.lt_irrefl (e ▸ h d List.mem_cons_self)
    rw [lookup_cons_eq_ite,if_neg hc]
    exact ih fun e he => h e (List.mem_cons_of_mem _ he)

theorem lookup_insertEntry (c d : Symbol) (w : Word) (l : List (Symbol × Word)) :
    (insertEntry c w l).lookup d = if d = c then some w else l.lookup d := by
  induction l with
  | nil => exact lookup_cons_eq_ite (c,w) [] d
  | cons e rest ih =>
    unfold insertEntry
    split
    · exact lookup_cons_eq_ite (c,w) (e :: rest) d
    · split
      · next heq => by_cases h : d = c <;> simp [lookup_cons_eq_ite,h,← heq]
      · next hne =>
        rw [lookup_cons_eq_ite,lookup_cons_eq_ite,ih]
        by_cases h : d = e.1
        · rw [if_pos h,if_pos h,if_neg (h ▸ Ne.symm hne)]
        · rw [if_neg h,if_neg h]

/-- Of two rules for one symbol the later counts, and a rule concerns its own symbol only. -/
@[simp] theorem find?_insert (r : Rules) (c d : Symbol) (w : Word) :
    (r.insert c w).find? d = if d = c then some w else r.find? d :=
  lookup_insertEntry c d w r.entries

theorem eq_of_lookup_eq {l m : List (Symbol × Word)} (hl : l.Pairwise fun a b => a.1 < b.1)
    (hm : m.Pairwise fun a b => a.1 < b.1) (h : ∀ c, l.lookup c = m.lookup c) : l = m := by
  induction l generalizing m with
  | nil =>
    cases m with
    | nil => rfl
    | cons e m => simpa [lookup_cons_eq_ite] using h e.1
  | cons d l ih =>
    obtain ⟨hd,hl⟩ := List.pairwise_cons.1 hl
    cases m with
    | nil => simpa [lookup_cons_eq_ite] using h d.1
    | cons e m =>
      obtain ⟨he,hm⟩ := List.pairwise_cons.1 hm
      have hnd := lookup_eq_none_of_forall_lt hd
      have hne := lookup_eq_none_of_forall_lt he
      have hkey : d.1 = e.1 := Decidable.byContradiction fun hn => by
        by_cases hlt : d.1 < e.1
        · have hx := h d.1
          rw [lookup_cons_eq_ite,if_pos rfl,lookup_cons_eq_ite,if_neg hn,
            lookup_eq_none_of_forall_lt fun x hx => Std.lt_trans hlt (he x hx)] at hx
          exact Option.some_ne_none _ hx
        · have hlt := lt_of_not_lt_of_ne hlt hn
          have hx := h e.1
          rw [lookup_cons_eq_ite,if_neg (Ne.symm hn),lookup_cons_eq_ite,if_pos rfl,
            lookup_eq_none_of_forall_lt fun x hx => Std.lt_trans hlt (hd x hx)] at hx
          exact Option.some_ne_none _ hx.symm
      have hval : d.2 = e.2 := by
        have hx := h d.1
        rw [lookup_cons_eq_ite,if_pos rfl,lookup_cons_eq_ite,if_pos hkey] at hx
        exact Option.some.inj hx
      have hrest : l = m := ih hl hm fun c => by
        by_cases hc : c = d.1
        · rw [hc,hnd,hkey,hne]
        · have hx := h c
          rwa [lookup_cons_eq_ite,if_neg hc,lookup_cons_eq_ite,if_neg (hkey ▸ hc)] at hx
      rw [hrest,Prod.ext hkey hval]

/-- A table is what it assigns to each symbol. -/
theorem ext_find? {r s : Rules} (h : ∀ c, r.find? c = s.find? c) : r = s := by
  obtain ⟨l,hl⟩ := r
  obtain ⟨m,hm⟩ := s
  have := eq_of_lookup_eq hl hm h
  subst this; rfl

end Rules

end LSystem
