import TransportDeck.Proofs.Token.Names

/-!
# Letter case

What does not tell a capital from its small letter can be said of a text in small letters just as
well: the first characters of a class end at the same place, and words are the same words.
-/

namespace TransportDeck.Text

/-! ## Functions of a character -/

variable {α : Type}

/-- A capital is treated as its small letter. -/
def CaseBlind (f : Char → α) : Prop := ∀ c, f c.toLower = f c

def capitals : List Char := "ABCDEFGHIJKLMNOPQRSTUVWXYZ".toList

/-- A character between `A` and `Z` is one of the capitals. -/
theorem mem_capitals {c : Char} (hge : 65 ≤ c.toNat) (hle : c.toNat ≤ 90) : c ∈ capitals := by
  have hmem : ∀ n : Nat, 65 ≤ n → n ≤ 90 → Char.ofNat n ∈ capitals := by
    intro n hge hle
    interval_cases n <;> decide
  rw [← Char.ofNat_toNat c]
  exact hmem _ hge hle

/-- Only the capitals have to be looked at. -/
theorem caseBlind_of_capitals {f : Char → α}
    (h : capitals.map (fun c ↦ f c.toLower) = capitals.map f) :
    CaseBlind f := by
  intro c
  rcases Lexer.toLower_cases c with hc | ⟨-, hge, hle⟩
  · rw [hc]
  · exact List.map_inj_left.mp h c (mem_capitals hge hle)

/-- A character that is no letter is told in either case. -/
theorem caseBlind_beq {d : Char} (hd : d.isAlpha = false) : CaseBlind (· == d) := fun c ↦ by
  rcases Lexer.toLower_cases c with hc | ⟨-, hge, hle⟩
  · rw [hc]
  · have halpha : c.isAlpha = true := by
      have hall : capitals.all Char.isAlpha = true := by decide
      exact List.all_eq_true.mp hall c (mem_capitals hge hle)
    have hne {e : Char} (he : e.isAlpha = true) : (e == d) = false := by
      rw [beq_eq_false_iff_ne]
      rintro rfl
      rw [hd] at he
      cases he
    exact (hne ((Lexer.isAlpha_toLower c).trans halpha)).trans (hne halpha).symm

theorem toUpper_toLower : CaseBlind Char.toUpper := caseBlind_of_capitals (by decide)

theorem toLower_toLower : CaseBlind Char.toLower := caseBlind_of_capitals (by decide)

/-- No letter is lowered to a character that is none. -/
theorem toLower_ne {c d : Char} (hd : d.isAlpha = false) (hc : c ≠ d) : c.toLower ≠ d := by
  have hbeq : (c.toLower == d) = (c == d) := caseBlind_beq hd c
  rwa [beq_eq_false_iff_ne.mpr hc, beq_eq_false_iff_ne] at hbeq

/-! ## Texts -/

@[simp] theorem lower_nil : lower [] = [] := rfl

@[simp] theorem lower_cons (c : Char) (cs : List Char) : lower (c :: cs) = c.toLower :: lower cs :=
  rfl

@[simp] theorem lower_append (cs ds : List Char) : lower (cs ++ ds) = lower cs ++ lower ds :=
  List.map_append

@[simp] theorem length_lower (cs : List Char) : (lower cs).length = cs.length := List.length_map _

@[simp] theorem lower_lower (cs : List Char) : lower (lower cs) = lower cs := by
  simp [lower, Function.comp_def, toLower_toLower _]

@[simp] theorem isEmpty_lower (cs : List Char) : (lower cs).isEmpty = cs.isEmpty := List.isEmpty_map

theorem take_lower (n : Nat) (cs : List Char) : (lower cs).take n = lower (cs.take n) :=
  List.map_take.symm

theorem drop_lower (n : Nat) (cs : List Char) : (lower cs).drop n = lower (cs.drop n) :=
  List.map_drop.symm

section

variable {p : Char → Bool} (hp : CaseBlind p) (cs : List Char)
include hp

/-- What is taken from the start of a text by a test that is blind to case is as long in lower case.
-/
theorem CaseBlind.takeWhile_lower : (lower cs).takeWhile p = lower (cs.takeWhile p) := by
  rw [lower, List.takeWhile_map, (funext hp : p ∘ Char.toLower = p)]
  rfl

/-- What is left behind it is the same, too. -/
theorem CaseBlind.dropWhile_lower : (lower cs).dropWhile p = lower (cs.dropWhile p) := by
  rw [lower, List.dropWhile_map, (funext hp : p ∘ Char.toLower = p)]
  rfl

/-- A test that is blind to case finds a character in either case. -/
theorem CaseBlind.any_lower : (lower cs).any p = cs.any p := by
  rw [lower, List.any_map, (funext hp : p ∘ Char.toLower = p)]

/-- A test that is blind to case holds of all characters in either case. -/
theorem CaseBlind.all_lower : (lower cs).all p = cs.all p := by
  rw [lower, List.all_map, (funext hp : p ∘ Char.toLower = p)]

theorem CaseBlind.run_lower : Lexer.run p (lower cs) = Lexer.run p cs := by
  rw [Lexer.run, hp.takeWhile_lower, length_lower, Lexer.run]

/-- A text is split at the same places in either case. -/
theorem CaseBlind.splitWhere_lower : splitWhere p (lower cs) = (splitWhere p cs).map lower := by
  induction cs with
  | nil => rfl
  | cons c cs ih =>
    rw [lower_cons, splitWhere, splitWhere, hp, ih]
    cases splitWhere p cs with
    | nil => split_ifs <;> rfl
    | cons w ws => split_ifs <;> rfl

end

/-- Blanks are no letters. -/
theorem isBlank_toLower : CaseBlind isBlank := caseBlind_of_capitals (by decide)

theorem trimStart_lower (cs : List Char) : trimStart (lower cs) = lower (trimStart cs) :=
  isBlank_toLower.dropWhile_lower cs

/-- A text is trimmed alike in either case. -/
theorem trim_lower (cs : List Char) : trim (lower cs) = lower (trim cs) := by
  have hreverse (ds : List Char) : (lower ds).reverse = lower ds.reverse := List.map_reverse.symm
  rw [trim, trim, trimStart_lower, trimEnd, trimEnd, hreverse,
    isBlank_toLower.dropWhile_lower, hreverse]

/-- Text without letters is in small letters. -/
theorem lower_eq_self_of_forall {p : Char → Bool} (hp : ∀ c, p c = true → c.toLower = c)
    {cs : List Char} (hcs : ∀ c ∈ cs, p c = true) : lower cs = cs :=
  (List.map_congr_left fun c hc ↦ hp c (hcs c hc)).trans (List.map_id _)

/-- Digits have no case. -/
theorem toLower_of_isDigit {c : Char} (h : c.isDigit = true) : c.toLower = c := by
  rcases Lexer.toLower_cases c with hc | ⟨-, hge, hle⟩
  · exact hc
  · have := (Lexer.isDigit_iff.mp h).2
    omega

theorem lower_takeWhile_isDigit (cs : List Char) :
    lower (cs.takeWhile Char.isDigit) = cs.takeWhile Char.isDigit :=
  lower_eq_self_of_forall (fun _ ↦ toLower_of_isDigit) fun _ ↦ List.mem_takeWhile_imp

/-- Letters of both cases are of one size. -/
theorem utf8Size_toLower : CaseBlind Char.utf8Size := caseBlind_of_capitals (by decide)

/-- A text takes as many bytes in lower case. -/
theorem byteSize_lower (cs : List Char) : byteSize (lower cs) = byteSize cs := by
  induction cs with
  | nil => rfl
  | cons c cs ih =>
    change c.toLower.utf8Size + byteSize (lower cs) = c.utf8Size + byteSize cs
    rw [utf8Size_toLower c, ih]

/-! ## Strings -/

theorem toList_lowerString (s : String) : (lowerString s).toList = lower s.toList :=
  String.toList_ofList

theorem lowerString_ofList (cs : List Char) :
    lowerString (String.ofList cs) = String.ofList (lower cs) := by
  rw [lowerString, String.toList_ofList]

theorem lowerString_append (s t : String) :
    lowerString (s ++ t) = lowerString s ++ lowerString t := by
  simp only [lowerString, String.toList_append, lower_append, String.ofList_append]

@[simp] theorem lowerString_lowerString (s : String) :
    lowerString (lowerString s) = lowerString s := by
  rw [lowerString, toList_lowerString, lower_lower, ← lowerString]

/-- Words are the same if they are equal in lower case. -/
theorem sameWord_iff {s t : String} : sameWord s t = true ↔ lowerString s = lowerString t := by
  rw [sameWord, beq_iff_eq, ← toList_lowerString, ← toList_lowerString, String.toList_inj]

/-- Comparing a word with another does not depend on the case of the other. -/
theorem sameWord_lowerString (word s : String) :
    sameWord word (lowerString s) = sameWord word s := by
  rw [Bool.eq_iff_iff, sameWord_iff, sameWord_iff, lowerString_lowerString]

theorem lowerString_sameWord (s word : String) :
    sameWord (lowerString s) word = sameWord s word := by
  rw [Bool.eq_iff_iff, sameWord_iff, sameWord_iff, lowerString_lowerString]

end TransportDeck.Text
