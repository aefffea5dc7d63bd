import LSystem.Proofs.Json.Spelling
import Mathlib.Data.List.Chain
import Mathlib.Data.List.TakeWhile
import Mathlib.Tactic.Tauto

/-!
# Scanners against spellings

Each scanner finds only what is spelled at the head of its text (`_sound`), and finds it where the
text does not go on in a way that would make it longer (`_complete`). A whole text is scanned to the
end just when it spells its tokens, and then no other tokens.
-/
namespace LSystem.Json

namespace Numeral

def NoDigit (text : List Char) : Prop := ∀ c ∈ text.head?, c.isDigit = false

end Numeral

theorem Stops.noDigit {text : List Char} (h : Stops text) : Numeral.NoDigit text := by
  intro c hc
  have hn := h c hc
  simp only [continuesNumeral,Bool.or_eq_false_iff] at hn
  exact hn.1.1.1

namespace Numeral

/-- Digits are all taken up, and nothing after them. -/
theorem span_digits {s rest : List Char} (hd : ∀ c ∈ s, c.isDigit = true) (hr : NoDigit rest) :
    (s ++ rest).takeWhile Char.isDigit = s ∧ (s ++ rest).dropWhile Char.isDigit = rest := by
  have ht : rest.takeWhile Char.isDigit = [] ∧ rest.dropWhile Char.isDigit = rest := by
    cases rest with
    | nil => exact ⟨rfl,rfl⟩
    | cons c rest =>
      have hc := hr c rfl
      simp [hc]
  rw [List.takeWhile_append_of_pos hd,List.dropWhile_append_of_pos hd,ht.1,ht.2,List.append_nil]
  exact ⟨rfl,rfl⟩

theorem digits?_eq_some_iff {text s rest : List Char} :
    digits? text = some (s,rest) ↔ Digits s ∧ text = s ++ rest ∧ NoDigit rest := by
  constructor
  · intro h
    unfold digits? at h
    split at h
    · exact absurd h (by simp)
    · next hne =>
      simp only [Option.some.injEq,Prod.mk.injEq] at h
      rcases h with ⟨rfl,rfl⟩
      refine ⟨⟨hne,fun c hc => List.mem_takeWhile_imp hc⟩,List.takeWhile_append_dropWhile.symm,?_⟩
      intro c hc
      have hd := List.head?_dropWhile_not Char.isDigit text
      rw [Option.mem_def.1 hc] at hd
      simpa using hd
  · intro hx
    rcases hx with ⟨⟨hne,hd⟩,rfl,hr⟩
    unfold digits?
    rw [(span_digits hd hr).1,(span_digits hd hr).2]
    cases s with
    | nil => exact absurd rfl hne
    | cons c s => rfl

theorem scanWhole?_eq_some_iff {text s rest : List Char} :
    scanWhole? text = some (s,rest) ↔ WholePart s ∧ text = s ++ rest ∧ NoDigit rest := by
  have key : scanWhole? text = some (s,rest) ↔
      digits? text = some (s,rest) ∧ (s.head? = some '0' → s = ['0']) := by
    unfold scanWhole?
    split
    · next h => simp [h]
    · next c t r h =>
      rw [h]
      constructor
      · intro h
        exact absurd h (by simp)
      · intro hx
        rcases hx with ⟨he,hz⟩
        simp only [Option.some.injEq,Prod.mk.injEq] at he
        rw [← he.1] at hz
        exact absurd (hz rfl) (by simp)
    · next d r hne h =>
      rw [h,iff_self_and]
      intro he hz
      simp only [Option.some.injEq,Prod.mk.injEq] at he
      rcases he with ⟨rfl,rfl⟩
      obtain ⟨c,t,rfl,_⟩ := (digits?_eq_some_iff.1 h).1.head
      have heq : c = '0' := Option.some.inj hz
      subst heq
      cases t with
      | nil => rfl
      | cons c t => exact (hne c t rfl).elim
  rw [key,digits?_eq_some_iff,WholePart]
  tauto

theorem scanFraction?_sound {text f rest : List Char} (h : scanFraction? text = some (f,rest)) :
    ∃ s, FractionAs f s ∧ text = s ++ rest := by
  unfold scanFraction? at h
  split at h
  · obtain ⟨hd,rfl,_⟩ := digits?_eq_some_iff.1 h
    exact ⟨_,.present hd,rfl⟩
  · simp only [Option.some.injEq,Prod.mk.injEq] at h
    rcases h with ⟨rfl,rfl⟩
    exact ⟨[],.absent,rfl⟩

theorem scanFraction?_complete {f s rest : List Char} (h : FractionAs f s) (hd : NoDigit rest)
    (hp : rest.head? ≠ some '.') : scanFraction? (s ++ rest) = some (f,rest) := by
  cases h with
  | absent =>
    rw [List.nil_append]
    unfold scanFraction?
    split
    · exact absurd rfl hp
    · rfl
  | present h => exact digits?_eq_some_iff.2 ⟨h,rfl,hd⟩

theorem scanExponentValue?_sound {text rest : List Char} {e : Option Int}
    (h : scanExponentValue? text = some (e,rest)) :
    ∃ negative sign s, SignAs negative sign ∧ Digits s ∧ text = sign ++ s ++ rest ∧
      e = some (exponentValue negative s) := by
  obtain ⟨⟨s,r⟩,hd,he⟩ := Option.map_eq_some_iff.1 h
  simp only [Prod.mk.injEq] at he
  rcases he with ⟨rfl,rfl⟩
  obtain ⟨hs,ht,_⟩ := digits?_eq_some_iff.1 hd
  unfold scanSign at ht ⊢
  split at ht
  · exact ⟨true,['-'],s,.minus,hs,congrArg (List.cons '-') ht,rfl⟩
  · exact ⟨false,['+'],s,.plus,hs,congrArg (List.cons '+') ht,rfl⟩
  · exact ⟨false,[],s,.absent,hs,ht,rfl⟩

/-- A sign before digits is taken off. -/
theorem SignAs.scanSign_eq {negative : Bool} {sign s : List Char} (h : SignAs negative sign)
    (hd : Digits s) (rest : List Char) : scanSign (sign ++ (s ++ rest)) = (negative,s ++ rest) := by
  cases h with
  | absent =>
    obtain ⟨c,t,rfl,hc⟩ := hd.head
    rw [List.nil_append]
    unfold scanSign
    split
    · next h =>
      rw [(List.cons.inj h).1] at hc
      exact absurd hc (by decide)
    · next h =>
      rw [(List.cons.inj h).1] at hc
      exact absurd hc (by decide)
    · rfl
  | plus => rfl
  | minus => rfl

theorem scanExponentValue?_complete {negative : Bool} {sign s rest : List Char}
    (hs : SignAs negative sign) (hd : Digits s) (hr : NoDigit rest) :
    scanExponentValue? (sign ++ (s ++ rest)) = some (some (exponentValue negative s),rest) := by
  rw [scanExponentValue?,hs.scanSign_eq hd]
  simp only [digits?_eq_some_iff.2 ⟨hd,rfl,hr⟩,Option.map_some]

theorem scanExponent?_sound {text rest : List Char} {e : Option Int}
    (h : scanExponent? text = some (e,rest)) : ∃ s, ExponentAs e s ∧ text = s ++ rest := by
  unfold scanExponent? at h
  split at h
  · obtain ⟨negative,sign,s,hs,hd,rfl,rfl⟩ := scanExponentValue?_sound h
    exact ⟨'e' :: (sign ++ s),.present (.inl rfl) hs hd,rfl⟩
  · obtain ⟨negative,sign,s,hs,hd,rfl,rfl⟩ := scanExponentValue?_sound h
    exact ⟨'E' :: (sign ++ s),.present (.inr rfl) hs hd,rfl⟩
  · simp only [Option.some.injEq,Prod.mk.injEq] at h
    rcases h with ⟨rfl,rfl⟩
    exact ⟨[],.absent,rfl⟩

theorem scanExponent?_complete {e : Option Int} {s rest : List Char} (h : ExponentAs e s)
    (hr : Stops rest) : scanExponent? (s ++ rest) = some (e,rest) := by
  cases h with
  | absent =>
    rw [List.nil_append]
    unfold scanExponent?
    split
    · exact absurd (hr 'e' rfl) (by decide)
    · exact absurd (hr 'E' rfl) (by decide)
    · rfl
  | present hm hs hd =>
    have hv := scanExponentValue?_complete hs hd hr.noDigit
    rw [← List.append_assoc] at hv
    rcases hm with rfl | rfl
    · exact hv
    · exact hv

theorem ExponentAs.follows {e : Option Int} {s rest : List Char} (h : ExponentAs e s)
    (hr : Stops rest) : NoDigit (s ++ rest) ∧ (s ++ rest).head? ≠ some '.' := by
  cases h with
  | absent =>
    refine ⟨hr.noDigit,?_⟩
    intro hp
    exact absurd (hr '.' hp) (by decide)
  | present hm =>
    refine ⟨?_,?_⟩
    · intro c hc
      have heq : _ = c := Option.some.inj hc
      subst heq
      rcases hm with rfl | rfl <;> rfl
    · intro hp
      have hp := Option.some.inj hp
      rcases hm with rfl | rfl <;> exact absurd hp (by decide)

theorem FractionAs.noDigit {f s rest : List Char} (h : FractionAs f s) (hr : NoDigit rest) :
    NoDigit (s ++ rest) := by
  cases h with
  | absent => exact hr
  | present =>
    intro c hc
    have heq : '.' = c := Option.some.inj hc
    subst heq
    rfl

theorem scanUnsigned?_sound {negative : Bool} {text rest : List Char} {n : Numeral}
    (h : scanUnsigned? negative text = some (n,rest)) :
    ∃ s, n.SpelledAs ((if negative then ['-'] else []) ++ s) ∧ text = s ++ rest := by
  unfold scanUnsigned? at h
  split at h
  · exact absurd h (by simp)
  · next hwhole =>
    obtain ⟨hw,rfl,_⟩ := scanWhole?_eq_some_iff.1 hwhole
    split at h
    · exact absurd h (by simp)
    · next hfraction =>
      obtain ⟨fraction,hf,rfl⟩ := scanFraction?_sound hfraction
      split at h
      · exact absurd h (by simp)
      · next hexponent =>
        obtain ⟨exponent,he,rfl⟩ := scanExponent?_sound hexponent
        simp only [Option.some.injEq,Prod.mk.injEq] at h
        rcases h with ⟨rfl,rfl⟩
        refine ⟨_,.mk hw hf he,?_⟩
        simp only [List.append_assoc]

theorem scanUnsigned?_complete {n : Numeral} {fraction exponent rest : List Char}
    (hw : WholePart n.whole) (hf : FractionAs n.fraction fraction)
    (he : ExponentAs n.exponent exponent) (hr : Stops rest) :
    scanUnsigned? n.negative (n.whole ++ (fraction ++ exponent) ++ rest) = some (n,rest) := by
  obtain ⟨hd,hp⟩ := he.follows hr
  have hwhole : scanWhole? (n.whole ++ (fraction ++ (exponent ++ rest))) =
      some (n.whole,fraction ++ (exponent ++ rest)) :=
    scanWhole?_eq_some_iff.2 ⟨hw,rfl,hf.noDigit hd⟩
  have hfraction := scanFraction?_complete hf hd hp
  have hexponent := scanExponent?_complete he hr
  rw [List.append_assoc,List.append_assoc]
  simp only [scanUnsigned?,hwhole,hfraction,hexponent]

theorem scan?_sound {text rest : List Char} {n : Numeral} (h : scan? text = some (n,rest)) :
    ∃ s, n.SpelledAs s ∧ text = s ++ rest := by
  unfold scan? at h
  split at h
  · obtain ⟨s,hs,rfl⟩ := scanUnsigned?_sound h
    exact ⟨_,hs,rfl⟩
  · obtain ⟨s,hs,rfl⟩ := scanUnsigned?_sound h
    exact ⟨_,hs,rfl⟩

theorem scan?_complete {n : Numeral} {s rest : List Char} (h : n.SpelledAs s) (hr : Stops rest) :
    scan? (s ++ rest) = some (n,rest) := by
  rcases h with ⟨hw,hf,he⟩
  have hu := scanUnsigned?_complete hw hf he hr
  cases hn : n.negative with
  | true =>
    rw [hn] at hu
    exact hu
  | false =>
    rw [hn] at hu
    obtain ⟨c,t,hs,hc⟩ := hw.1.head
    rw [if_neg Bool.false_ne_true,List.nil_append]
    rw [hs] at hu ⊢
    unfold scan?
    split
    · next h =>
      rw [(List.cons.inj h).1] at hc
      exact absurd hc (by decide)
    · exact hu

end Numeral

namespace StringBody

theorem letterEscape?_eq_some_iff {c : Char} {code : Nat} :
    letterEscape? c = some code ↔ (c,code) ∈ letterEscapes := by
  constructor
  · intro h
    unfold letterEscape? at h
    split at h <;> cases h <;> decide
  · intro h
    simp only [letterEscapes,List.mem_cons,Prod.mk.injEq,List.not_mem_nil,or_false] at h
    rcases h with ⟨rfl,rfl⟩ | ⟨rfl,rfl⟩ | ⟨rfl,rfl⟩ | ⟨rfl,rfl⟩ | ⟨rfl,rfl⟩ | ⟨rfl,rfl⟩ |
      ⟨rfl,rfl⟩ | ⟨rfl,rfl⟩ <;> rfl

theorem unit?_eq_some_iff {a b c d : Char} {code : Nat} :
    unit? a b c d = some code ↔ ∃ w x y z, hexValue? a = some w ∧ hexValue? b = some x ∧
      hexValue? c = some y ∧ hexValue? d = some z ∧ code = w * 4096 + x * 256 + y * 16 + z := by
  constructor
  · intro h
    simp only [unit?,Option.bind_eq_bind,Option.bind_eq_some_iff,Option.pure_def,
      Option.some.injEq] at h
    rcases h with ⟨w,hw,x,hx,y,hy,z,hz,rfl⟩
    exact ⟨w,x,y,z,hw,hx,hy,hz,by omega⟩
  · intro hx
    rcases hx with ⟨w,x,y,z,hw,hx,hy,hz,rfl⟩
    simp only [unit?,hw,hx,hy,hz,Option.bind_eq_bind,Option.bind_some,Option.pure_def,
      Option.some.injEq]
    omega

theorem scan?_sound {text rest : List Char} {codes : List Nat}
    (h : scan? text = some (codes,rest)) : ∃ s, SpelledAs codes s ∧ text = s ++ '"' :: rest := by
  fun_induction scan? text generalizing codes with
  | case1 => exact absurd h (by simp)
  | case2 text =>
    simp only [Option.some.injEq,Prod.mk.injEq] at h
    rcases h with ⟨rfl,rfl⟩
    exact ⟨[],.nil,rfl⟩
  | case3 a b c d text ih =>
    obtain ⟨code,more,hc,ht,rfl⟩ := prepend_eq_some h
    obtain ⟨s,hs,rfl⟩ := ih ht
    obtain ⟨w,x,y,z,hw,hx,hy,hz,rfl⟩ := unit?_eq_some_iff.1 hc
    exact ⟨_,.cons (.unit hw hx hy hz) hs,rfl⟩
  | case4 c text _ ih =>
    obtain ⟨code,more,hc,ht,rfl⟩ := prepend_eq_some h
    obtain ⟨s,hs,rfl⟩ := ih ht
    exact ⟨_,.cons (.letter (letterEscape?_eq_some_iff.1 hc)) hs,rfl⟩
  | case5 c text hq hu hb ih =>
    obtain ⟨code,more,hc,ht,rfl⟩ := prepend_eq_some h
    obtain ⟨s,hs,rfl⟩ := ih ht
    have hne : c ≠ '\\' := by
      intro hc
      cases s with
      | nil => exact hb '"' rest hc rfl
      | cons d s => exact hb d _ hc rfl
    split at hc
    · exact absurd hc (by simp)
    · next hcontrol =>
      have heq := Option.some.inj hc
      subst heq
      exact ⟨_,.cons (.plain (Nat.le_of_not_lt hcontrol) hq hne) hs,rfl⟩

theorem scan?_code {code : Nat} {s text : List Char} (h : CodeAs code s) :
    scan? (s ++ text) = prepend (some code) (scan? text) := by
  cases h with
  | @plain c hc hq hb =>
    rw [List.singleton_append,scan?]
    · rw [if_neg (Nat.not_lt.2 hc)]
    · exact hq
    · intro _ _ _ _ _ he
      exact absurd he hb
    · intro _ _ he
      exact absurd he hb
  | letter h =>
    have he := letterEscape?_eq_some_iff.2 h
    rw [← he,List.cons_append,List.singleton_append,scan?]
    intro a b c d rest hu
    subst hu
    exact absurd he (by simp [letterEscape?])
  | unit ha hb hc hd =>
    have hu := unit?_eq_some_iff.2 ⟨_,_,_,_,ha,hb,hc,hd,rfl⟩
    rw [← hu]
    rfl

theorem scan?_complete {codes : List Nat} {s : List Char} (h : SpelledAs codes s)
    (rest : List Char) : scan? (s ++ '"' :: rest) = some (codes,rest) := by
  induction h with
  | nil => rfl
  | cons hc _ ih => rw [List.append_assoc,scan?_code hc,ih]; rfl

theorem scalars?_eq_some_iff {codes : List Nat} {s : List Char} :
    scalars? codes = some s ↔ Denotes codes s := by
  constructor
  · intro h
    fun_induction scalars? codes generalizing s with
    | case1 => obtain rfl := Option.some.inj h; exact .nil
    | case2 => exact absurd h (by simp)
    | case3 n hn =>
      simp only [Bool.or_eq_true,not_or,Bool.not_eq_true] at hn
      have heq := Option.some.inj h
      subst heq
      exact .single hn.1 hn.2 .nil
    | case4 n m rest hn hm ih =>
      obtain ⟨t,ht,rfl⟩ := Option.map_eq_some_iff.1 h
      exact .pair hn hm (ih ht)
    | case5 => exact absurd h (by simp)
    | case6 => exact absurd h (by simp)
    | case7 n m rest hn hm ih =>
      obtain ⟨t,ht,rfl⟩ := Option.map_eq_some_iff.1 h
      exact .single (Bool.eq_false_iff.2 hn) (Bool.eq_false_iff.2 hm) (ih ht)
  · intro h
    induction h with
    | nil => rfl
    | @single n codes s hh hl _ ih =>
      cases codes with
      | nil =>
        have heq := Option.some.inj ih
        subst heq
        simp [scalars?,hh,hl]
      | cons m codes => simp [scalars?,hh,hl,ih]
    | pair hh hl _ ih => simp [scalars?,hh,hl,ih]

end StringBody

theorem Token.scan?_sound {text rest : List Char} {t : Token} (h : scan? text = some (t,rest)) :
    ∃ s, t.SpelledAs s ∧ text = s ++ rest := by
  unfold scan? at h
  split at h
  case h_10 =>
    obtain ⟨⟨codes,r⟩,hscan,he⟩ := Option.map_eq_some_iff.1 h
    simp only [Prod.mk.injEq] at he
    rcases he with ⟨rfl,rfl⟩
    obtain ⟨s,hs,rfl⟩ := StringBody.scan?_sound hscan
    refine ⟨_,.string hs,?_⟩
    simp only [List.cons_append,List.append_assoc,List.nil_append]
  case h_11 =>
    obtain ⟨⟨n,r⟩,hn,he⟩ := Option.map_eq_some_iff.1 h
    simp only [Prod.mk.injEq] at he
    rcases he with ⟨rfl,rfl⟩
    obtain ⟨s,hs,rfl⟩ := Numeral.scan?_sound hn
    exact ⟨s,.number hs,rfl⟩
  all_goals
    simp only [Option.some.injEq,Prod.mk.injEq] at h
    rcases h with ⟨rfl,rfl⟩
    exact ⟨_,by constructor,rfl⟩

theorem Token.scan?_complete {t : Token} {s rest : List Char} (h : t.SpelledAs s)
    (hr : t.isNumber = true → Stops rest) : scan? (s ++ rest) = some (t,rest) := by
  cases h with
  | number h =>
    have hs := Numeral.scan?_complete h (hr rfl)
    obtain ⟨c,r,rfl,hc⟩ := h.head
    unfold scan?
    split
    case h_11 => rw [hs]; rfl
    all_goals
      next he =>
      rw [(List.cons.inj he).1] at hc
      exact absurd hc (by decide)
  | string h =>
    have hs := StringBody.scan?_complete h rest
    rw [List.cons_append,List.append_assoc,List.singleton_append,scan?,hs]
    rfl
  | _ => rfl

theorem Spells.blank {c : Char} {text : List Char} {tokens : List Token} (h : Spells text tokens)
    (hc : Token.isBlank c = true) : Spells (c :: text) tokens := by
  cases h with
  | nil hb => exact .nil (List.forall_mem_cons.2 ⟨hc,hb⟩)
  | cons hb ht hrest => exact .cons (List.forall_mem_cons.2 ⟨hc,hb⟩) ht hrest

/-- No two numerals in a row. -/
def Separate (tokens : List Token) : Prop :=
  tokens.IsChain fun t u => t.isNumber = true → u.isNumber = false

theorem Scan.ofText_blanks {blanks text : List Char} (hb : Blank blanks) :
    Scan.ofText (blanks ++ text) = Scan.ofText text := by
  induction blanks with
  | nil => rfl
  | cons c blanks ih =>
    rw [List.cons_append,Scan.ofText,if_pos (hb c List.mem_cons_self)]
    exact ih fun d hd => hb d (List.mem_cons_of_mem _ hd)

theorem Scan.ofText_token {c : Char} {text rest : List Char} {t : Token}
    (hc : Token.isBlank c = false) (h : Token.scan? (c :: text) = some (t,rest)) :
    Scan.ofText (c :: text) = (Scan.ofText rest).cons t := by
  rw [Scan.ofText,if_neg (by simp [hc])]
  split
  · next hn =>
    rw [h] at hn
    exact absurd hn (by simp)
  · next hs =>
    rw [h] at hs
    simp only [Option.some.injEq,Prod.mk.injEq] at hs
    rw [hs.1,hs.2]

/-- What is scanned to the end is spelled. -/
theorem Scan.spells_of_ofText {text : List Char} {tokens : List Token}
    (h : Scan.ofText text = ⟨tokens,true⟩) : Spells text tokens := by
  fun_induction Scan.ofText text generalizing tokens with
  | case1 =>
    have heq : [] = tokens := congrArg Scan.tokens h
    subst heq
    exact .nil (by simp [Blank])
  | case2 c text hc ih => exact (ih h).blank hc
  | case3 => exact absurd (congrArg Scan.exhausted h) (by simp)
  | case4 c text _ t rest hs _ ih =>
    obtain ⟨s,hs,he⟩ := Token.scan?_sound hs
    have heq : t :: (Scan.ofText rest).tokens = tokens := congrArg Scan.tokens h
    subst heq
    have hall : (Scan.ofText rest).exhausted = true := congrArg Scan.exhausted h
    have hrest : Spells rest (Scan.ofText rest).tokens := ih (by rw [← hall])
    have hblank : Blank [] := by simp [Blank]
    rw [he]
    exact .cons hblank hs hrest

/-- A text leaves no choice what it spells, and is scanned to the end, where no two numerals
touch. -/
theorem Scan.ofText_of_spells {text : List Char} {tokens : List Token} (h : Spells text tokens)
    (hs : Separate tokens) : Scan.ofText text = ⟨tokens,true⟩ := by
  induction h with
  | nil hb =>
    have h : Scan.ofText (_ ++ []) = Scan.ofText [] := Scan.ofText_blanks hb
    rw [List.append_nil] at h
    rw [h,Scan.ofText]
  | @cons blanks s text t tokens hb ht hrest ih =>
    obtain ⟨hnext,hs⟩ := List.isChain_cons.1 hs
    have hscan : Token.scan? (s ++ text) = some (t,text) :=
      Token.scan?_complete ht fun hn => hrest.stops fun u hu => hnext u hu hn
    obtain ⟨c,r,rfl,hc,_⟩ := ht.head
    rw [List.cons_append] at hscan
    rw [Scan.ofText_blanks hb,List.cons_append,Scan.ofText_token hc hscan,ih hs]
    rfl

end LSystem.Json
