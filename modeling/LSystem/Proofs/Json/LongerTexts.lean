import LSystem.Proofs.Json.Scanning

/-!
# Scanning texts that go on

What is scanned in a text stays so when the text goes on, however it does. The one exception is a
numeral at the end of the text, which becomes longer where a digit, a point or an exponent comes
next. So a longer text has the tokens of the shorter one and then others (`Scan.tokens_isPrefix`).
-/
namespace LSystem.Json

theorem Numeral.NoDigit.append {text more : List Char} (h : NoDigit text) (hm : NoDigit more) :
    NoDigit (text ++ more) := by
  cases text with
  | nil => exact hm
  | cons c text => exact h

/-- What is scanned at the head of a text is scanned there when the text goes on. -/
def ScansOn {γ : Type} (scan : List Char → Option (γ × List Char)) : Prop :=
  ∀ ⦃text : List Char⦄ ⦃value : γ⦄ ⦃rest : List Char⦄, scan text = some (value,rest) →
    ∀ ⦃more : List Char⦄, Stops more → scan (text ++ more) = some (value,rest ++ more)

namespace Numeral

theorem digits?_scansOn : ScansOn digits? := by
  intro text s rest h more hm
  obtain ⟨hs,rfl,hr⟩ := digits?_eq_some_iff.1 h
  exact digits?_eq_some_iff.2 ⟨hs,List.append_assoc ..,hr.append hm.noDigit⟩

theorem scanWhole?_scansOn : ScansOn scanWhole? := by
  intro text s rest h more hm
  obtain ⟨hs,rfl,hr⟩ := scanWhole?_eq_some_iff.1 h
  exact scanWhole?_eq_some_iff.2 ⟨hs,List.append_assoc ..,hr.append hm.noDigit⟩

theorem scanFraction?_of_head {text : List Char} (h : text.head? ≠ some '.') :
    scanFraction? text = some ([],text) := by
  unfold scanFraction?
  split
  · exact absurd rfl h
  · rfl

theorem scanFraction?_scansOn : ScansOn scanFraction? := by
  intro text f rest h more hm
  have habsent : text.head? ≠ some '.' → scanFraction? (text ++ more) = some (f,rest ++ more) := by
    intro hp
    rw [scanFraction?_of_head hp] at h
    obtain ⟨rfl,rfl⟩ := Prod.mk.inj (Option.some.inj h)
    apply scanFraction?_of_head
    cases text with
    | nil => exact fun hdot => absurd (hm '.' hdot) (by decide)
    | cons c text => exact hp
  rcases text with _ | ⟨c,text⟩
  · exact habsent (by simp)
  · by_cases hc : c = '.'
    · subst hc
      exact digits?_scansOn h hm
    · exact habsent (by simpa using hc)

theorem scanSign_append {text : List Char} (h : text ≠ []) (more : List Char) :
    scanSign (text ++ more) = ((scanSign text).1,(scanSign text).2 ++ more) := by
  obtain ⟨c,text,rfl⟩ := List.exists_cons_of_ne_nil h
  unfold scanSign
  split <;> simp_all

theorem scanExponentValue?_scansOn : ScansOn scanExponentValue? := by
  intro text e rest h more hm
  have hne : text ≠ [] := by
    intro hnil
    subst hnil
    exact absurd h (by simp [scanExponentValue?,scanSign,digits?])
  obtain ⟨⟨s,r⟩,hs,he⟩ := Option.map_eq_some_iff.1 h
  obtain ⟨rfl,rfl⟩ := Prod.mk.inj he
  simp only [scanExponentValue?,scanSign_append hne,digits?_scansOn hs hm,Option.map_some]

theorem scanExponent?_of_head {text : List Char} (he : text.head? ≠ some 'e')
    (hE : text.head? ≠ some 'E') : scanExponent? text = some (none,text) := by
  unfold scanExponent?
  split
  · exact absurd rfl he
  · exact absurd rfl hE
  · rfl

theorem scanExponent?_scansOn : ScansOn scanExponent? := by
  intro text e rest h more hm
  have habsent : text.head? ≠ some 'e' → text.head? ≠ some 'E' →
      scanExponent? (text ++ more) = some (e,rest ++ more) := by
    intro he hE
    rw [scanExponent?_of_head he hE] at h
    obtain ⟨rfl,rfl⟩ := Prod.mk.inj (Option.some.inj h)
    cases text with
    | nil =>
      apply scanExponent?_of_head
      · exact fun hmark => absurd (hm 'e' hmark) (by decide)
      · exact fun hmark => absurd (hm 'E' hmark) (by decide)
    | cons c text => exact scanExponent?_of_head he hE
  rcases text with _ | ⟨c,text⟩
  · exact habsent (by simp) (by simp)
  · by_cases he : c = 'e'
    · subst he
      exact scanExponentValue?_scansOn h hm
    · by_cases hE : c = 'E'
      · subst hE
        exact scanExponentValue?_scansOn h hm
      · exact habsent (by simpa using he) (by simpa using hE)

theorem scanUnsigned?_scansOn (negative : Bool) : ScansOn (scanUnsigned? negative) := by
  intro text n rest h more hm
  unfold scanUnsigned? at h
  split at h
  · exact absurd h (by simp)
  · next hwhole =>
    split at h
    · exact absurd h (by simp)
    · next hfraction =>
      split at h
      · exact absurd h (by simp)
      · next hexponent =>
        obtain ⟨rfl,rfl⟩ := Prod.mk.inj (Option.some.inj h)
        simp only [scanUnsigned?,scanWhole?_scansOn hwhole hm,scanFraction?_scansOn hfraction hm,
          scanExponent?_scansOn hexponent hm]

theorem scan?_of_head {text : List Char} (h : text.head? ≠ some '-') :
    scan? text = scanUnsigned? false text := by
  unfold scan?
  split
  · exact absurd rfl h
  · rfl

theorem scan?_scansOn : ScansOn scan? := by
  intro text n rest h more hm
  rcases text with _ | ⟨c,text⟩
  · exact absurd h (by simp [scan?,scanUnsigned?,scanWhole?,digits?])
  · by_cases hc : c = '-'
    · subst hc
      exact scanUnsigned?_scansOn true h hm
    · have hhead : (c :: text).head? ≠ some '-' := by simpa using hc
      have hmore : (c :: text ++ more).head? ≠ some '-' := hhead
      rw [scan?_of_head hhead] at h
      rw [scan?_of_head hmore]
      exact scanUnsigned?_scansOn false h hm

end Numeral

theorem StringBody.scan?_scansOn : ScansOn StringBody.scan? := by
  intro text codes rest h more _
  obtain ⟨s,hs,rfl⟩ := scan?_sound h
  rw [List.append_assoc]
  exact scan?_complete hs (rest ++ more)

/-- Where a numeral can be scanned, no other token begins. -/
theorem Token.scan?_number {text rest : List Char} {n : Numeral}
    (h : Numeral.scan? text = some (n,rest)) : scan? text = some (number n,rest) := by
  obtain ⟨s,hs,rfl⟩ := Numeral.scan?_sound h
  obtain ⟨c,t,rfl,hc⟩ := hs.head
  unfold scan?
  split
  case h_11 => rw [h]; rfl
  all_goals
    next he =>
    rw [(List.cons.inj he).1] at hc
    exact absurd hc (by decide)

theorem Token.scan?_scansOn : ScansOn Token.scan? := by
  intro text t rest h more hm
  unfold scan? at h
  split at h
  case h_10 =>
    obtain ⟨⟨codes,r⟩,hs,he⟩ := Option.map_eq_some_iff.1 h
    obtain ⟨rfl,rfl⟩ := Prod.mk.inj he
    rw [List.cons_append,scan?,StringBody.scan?_scansOn hs hm]
    rfl
  case h_11 =>
    obtain ⟨⟨n,r⟩,hn,he⟩ := Option.map_eq_some_iff.1 h
    obtain ⟨rfl,rfl⟩ := Prod.mk.inj he
    exact scan?_number (Numeral.scan?_scansOn hn hm)
  all_goals
    obtain ⟨rfl,rfl⟩ := Prod.mk.inj (Option.some.inj h)
    rfl

theorem Scan.tokens_isPrefix (text : List Char) {more : List Char} (hm : Stops more) :
    (Scan.ofText text).tokens <+: (Scan.ofText (text ++ more)).tokens := by
  fun_induction Scan.ofText text with
  | case1 => exact List.nil_prefix
  | case2 c text hc ih =>
    rw [List.cons_append,Scan.ofText,if_pos hc]
    exact ih
  | case3 => exact List.nil_prefix
  | case4 c text hc t rest hs _ ih =>
    have hlonger := Token.scan?_scansOn hs hm
    rw [List.cons_append] at hlonger ⊢
    rw [Scan.ofText_token (Bool.eq_false_iff.2 hc) hlonger]
    exact List.prefix_cons_inj t |>.2 ih

end LSystem.Json
