import Mathlib.Data.String.Basic
import TransportDeck.Proofs.Node.EditedNumbers
import TransportDeck.Proofs.Node.Source
import TransportDeck.Proofs.Number.Integers
import TransportDeck.Proofs.Text.LetterCase
import TransportDeck.Proofs.Token.Words

/-!
# Spellings of names

The key of a classifier is put together from its parts, and the key that a spelling asks for is made
from the text.  They are the same if the classifier has no mark and its number is spelled as it is
printed; otherwise the spelling asks for a key that no classifier of a record has.
-/

namespace TransportDeck

open Text

/-! ## Particles -/

namespace Classifier

/-- Words of one character are ordered as their characters. -/
theorem toString_le_iff {c d : Char} : c.toString ≤ d.toString ↔ c ≤ d := by
  have hlist (e : Char) : e.toString.toList = [e] := by simp [Char.toString]
  rw [← not_lt, ← not_lt, String.lt_iff_toList_lt, hlist, hlist, List.cons_lt_cons_iff]
  simp

/-- Inserting a word of one character is inserting the character. -/
theorem insertWord_toString (c : Char) (cs : List Char) :
    insertWord c.toString (cs.map Char.toString) =
      (ParticleList.insertSorted c cs).map Char.toString := by
  induction cs with
  | nil => rfl
  | cons d ds ih =>
    rw [List.map_cons, insertWord, ParticleList.insertSorted, ih]
    simp only [toString_le_iff]
    split_ifs <;> rfl

/-- Sorting words of one character is sorting their characters. -/
theorem sortedWords_toString (cs : List Char) :
    sortedWords (cs.map Char.toString) = (ParticleList.sorted cs).map Char.toString := by
  induction cs with
  | nil => rfl
  | cons c cs ih =>
    change insertWord c.toString (sortedWords (cs.map Char.toString)) = _
    rw [ih, insertWord_toString]
    rfl

end Classifier

namespace ParticleList

variable {p : ParticleList} {piece : List Char} {c : Char}

/-- The symbols in the order of their letters. -/
def sortedText (body : List Char) : String :=
  ",".intercalate
    (Classifier.sortedWords ((splitWhere (· == ',') body).map fun p ↦ String.ofList (trim p)))

/-- A piece that is read as a symbol is this symbol and blanks. -/
theorem trim_of_symbol? (h : symbol? piece = some c) : trim piece = [c] := by
  unfold symbol? at h
  split at h
  · next d hd =>
    split_ifs at h
    rw [hd, Option.some.inj h]
  · cases h

/-- Pieces that are read as symbols are these symbols and blanks. -/
theorem map_trim_of_mapM {pieces : List (List Char)} {symbols : List Char}
    (h : pieces.mapM symbol? = some symbols) : pieces.map trim = symbols.map ([·]) := by
  induction pieces generalizing symbols with
  | nil =>
    obtain rfl := Option.some.inj h
    rfl
  | cons piece pieces ih =>
    rw [List.mapM_cons] at h
    obtain ⟨c, hc, h⟩ := Option.bind_eq_some_iff.mp h
    obtain ⟨cs, hcs, h⟩ := Option.bind_eq_some_iff.mp h
    obtain rfl := Option.some.inj h
    rw [List.map_cons, List.map_cons, trim_of_symbol? hc, ih hcs]

/-- A list of particles has the key that its text asks for. -/
theorem key_of_parse? {body : String} (h : parse? (":" ++ body) = some p) :
    p.key = sortedText (lower body.toList) := by
  have htext : (":" ++ body).toList = ':' :: body.toList := by simp
  unfold parse? at h
  rw [htext] at h
  obtain ⟨symbols, hsymbols, rfl⟩ := Option.map_eq_some_iff.mp h
  have hlower : ((symbols.map Char.toUpper).map Char.toLower) = symbols.map Char.toLower := by
    simp
  have hpieces : (splitWhere (· == ',') (lower body.toList)).map (fun p ↦ String.ofList (trim p)) =
      (symbols.map Char.toLower).map Char.toString := by
    have htrim := map_trim_of_mapM hsymbols
    rw [(caseBlind_beq (by decide)).splitWhere_lower, List.map_map]
    calc (splitWhere (· == ',') body.toList).map ((fun p ↦ String.ofList (trim p)) ∘ lower)
        = ((splitWhere (· == ',') body.toList).map trim).map fun p ↦ String.ofList (lower p) := by
          simp [Function.comp_def, trim_lower]
      _ = (symbols.map Char.toLower).map Char.toString := by
          rw [htrim]
          simp [Char.toString]
  rw [key, sortedText, hpieces, hlower, Classifier.sortedWords_toString, joined]

end ParticleList

namespace Classifier

/-! ## Keys of texts -/

/-- Where the characters of a class end at the same place, so do the texts behind them. -/
theorem append_inj_of_run {p : Char → Bool} {as bs cs ds : List Char} (has : ∀ a ∈ as, p a = true)
    (hbs : ∀ b ∈ bs, p b = true) (hcs : ∀ c ∈ cs.head?, p c = false)
    (hds : ∀ d ∈ ds.head?, p d = false) (h : as ++ cs = bs ++ ds) : as = bs ∧ cs = ds := by
  have hlength : as.length = bs.length := by
    rw [← Lexer.run_append has hcs, ← Lexer.run_append hbs hds, h]
  exact List.append_inj h hlength

section

variable {text : String} {head body : List Char}

/-- Without blanks there is nothing to trim. -/
theorem trim_eq_self {cs : List Char} (h : ∀ c ∈ cs, isBlank c = false) : trim cs = cs := by
  have htrim : trim ([] ++ cs ++ []) = cs := trim_append rfl h rfl
  rwa [List.append_nil] at htrim

/-- Without a colon a text is not cut. -/
theorem cutAt_of_notMem (h : ':' ∉ head) : cutAt ':' head = (head, none) := by
  have hall : ∀ c ∈ head, (c != ':') = true := by
    rintro c hc
    exact bne_iff_ne.mpr fun heq ↦ h (heq ▸ hc)
  rw [cutAt, List.dropWhile_eq_nil_iff.mpr hall]

/-- A text is cut at its first colon. -/
theorem cutAt_append (h : ':' ∉ head) (body : List Char) :
    cutAt ':' (head ++ ':' :: body) = (head, some body) := by
  have hall : ∀ c ∈ head, (c != ':') = true := by
    rintro c hc
    exact bne_iff_ne.mpr fun heq ↦ h (heq ▸ hc)
  rw [cutAt, List.dropWhile_append_of_pos hall, List.takeWhile_append_of_pos hall]
  simp

/-- No letter is lowered to a colon. -/
theorem colon_notMem_lower (h : ':' ∉ head) : ':' ∉ lower head := by
  intro hmem
  obtain ⟨c, hc, hlower⟩ := List.mem_map.mp hmem
  have hne : c ≠ ':' := fun heq ↦ h (heq ▸ hc)
  exact toLower_ne (by decide) hne hlower

/-- The key of a text without a colon is that text in lower case. -/
theorem keyOf_head (htext : text.toList = head) (hblank : ∀ c ∈ head, isBlank c = false)
    (hcolon : ':' ∉ head) : keyOf text = String.ofList (lower head) := by
  unfold keyOf
  dsimp only
  rw [htext, trim_eq_self hblank, cutAt_of_notMem (colon_notMem_lower hcolon)]

/-- The key of a text with a colon has its particles in order. -/
theorem keyOf_particles (htext : text.toList = head ++ ':' :: body)
    (hblank : ∀ c ∈ head ++ body, isBlank c = false) (hcolon : ':' ∉ head) :
    keyOf text = String.ofList (lower head) ++ ":" ++ ParticleList.sortedText (lower body) := by
  have hblanks : ∀ c ∈ head ++ ':' :: body, isBlank c = false := by
    rw [List.forall_mem_append, List.forall_mem_cons]
    rw [List.forall_mem_append] at hblank
    exact ⟨hblank.1, by decide, hblank.2⟩
  have hlower : lower (head ++ ':' :: body) = lower head ++ ':' :: lower body := by
    rw [lower_append, lower_cons]
    rfl
  unfold keyOf
  dsimp only
  rw [htext, trim_eq_self hblanks, hlower, cutAt_append (colon_notMem_lower hcolon)]
  rfl

/-- Look-ups do not tell letter case. -/
theorem keyOf_congr {s t : String} (h : lowerString s = lowerString t) : keyOf s = keyOf t := by
  have hlower : lower (trim s.toList) = lower (trim t.toList) := by
    rw [← trim_lower, ← trim_lower, ← toList_lowerString, ← toList_lowerString, h]
  rw [keyOf, keyOf, hlower]

end

/-! ## Spellings -/

/-- The classifier as it is written: its mark, its word, its number and its particles. -/
def spelling (c : Classifier) : String :=
  fieldSource c.modifier ++ c.name.source ++ fieldSource c.number ++
    (c.particles.bind (·.token)).getD ""

/-- A classifier is written as it is spelled, with layout behind it. -/
theorem source_eq (c : Classifier) : c.source = c.spelling ++ layoutText c.layout := by
  simp only [source, spelling, String.append_assoc]

/-- There is no mark, and the number is spelled as it is printed. -/
def isPlain (c : Classifier) : Bool :=
  c.modifier.isNone && c.number.all fun f ↦ f.toInt?.all fun n ↦ f.source == toString n

/-- The parts of a classifier are what their texts say. -/
structure IsWritten (c : Classifier) : Prop where
  modifier : ∀ f ∈ c.modifier, f.source = "*" ∨ f.source = "+"
  name : c.name.toText? = some c.name.source
  isName : Lexer.IsName c.name.source.toList
  number : ∀ f ∈ c.number, f.source ≠ "" ∧ (∀ d ∈ f.source.toList, d.isDigit = true) ∧
    f.toInt?.isSome = true ∧ f.toInt? = Number.readInt? f.source
  particles : ∀ p ∈ c.particles, ∃ body, p.token = some (":" ++ body) ∧
    (∀ d ∈ body.toList, isBlank d = false) ∧ ParticleList.parse? (":" ++ body) = some p

/-- The number of a key. -/
def numberText (c : Classifier) : String := (c.numberValue?.map toString).getD ""

def particleText (c : Classifier) : String := (c.particles.map fun p ↦ ":" ++ p.key).getD ""

/-- The key of a classifier is its word in lower case, its number and its particles. -/
theorem key_eq (c : Classifier) : c.key = lowerString c.word ++ c.numberText ++ c.particleText := by
  unfold key numberText particleText
  cases c.numberValue? <;> cases c.particles <;> rfl

variable {c d : Classifier}

namespace IsWritten

/-- The number of a classifier is spelled in digits. -/
theorem isDigit_number (h : c.IsWritten) :
    ∀ a ∈ (fieldSource c.number).toList, a.isDigit = true := by
  cases hnumber : c.number with
  | none => simp [fieldSource]
  | some f => exact (h.number f hnumber).2.1

/-- What is in front of the particles. -/
theorem front (h : c.IsWritten) :
    ∀ a ∈ (fieldSource c.modifier ++ c.name.source ++ fieldSource c.number).toList,
      isBlank a = false ∧ a ≠ ':' := by
  simp only [String.toList_append, List.forall_mem_append]
  refine ⟨⟨?_, fun a ha ↦ ?_⟩, fun a ha ↦ ?_⟩
  · cases hmodifier : c.modifier with
    | none => simp [fieldSource]
    | some f =>
      intro a ha
      change a ∈ f.source.toList at ha
      rcases h.modifier f hmodifier with hmark | hmark
      · obtain rfl : a = '*' := by simpa [hmark] using ha
        exact ⟨by decide, by decide⟩
      · obtain rfl : a = '+' := by simpa [hmark] using ha
        exact ⟨by decide, by decide⟩
  · have hword := h.isName.forall_mem a ha
    refine ⟨Lexer.isBlank_of_isWordChar hword, ?_⟩
    rintro rfl
    cases hword
  · have hdigit := h.isDigit_number a ha
    refine ⟨Lexer.eq_false_of_integerStarts (Lexer.mem_integerStarts hdigit)
      isBlank (by decide), ?_⟩
    rintro rfl
    cases hdigit

/-- The number of a classifier has no letters. -/
theorem lower_number (h : c.IsWritten) :
    lowerString (fieldSource c.number) = fieldSource c.number := by
  rw [lowerString, lower_eq_self_of_forall (fun _ ↦ toLower_of_isDigit) h.isDigit_number,
    String.ofList_toList]

/-- The key of a spelling has all its parts, the modifier among them, and the digits as they are
spelled. -/
theorem keyOf_spelling (h : c.IsWritten) : keyOf c.spelling =
    lowerString (fieldSource c.modifier) ++ lowerString c.name.source ++
      fieldSource c.number ++ c.particleText := by
  have hfront := h.front
  have hlower :
    String.ofList (lower (fieldSource c.modifier ++ c.name.source ++ fieldSource c.number).toList) =
      lowerString (fieldSource c.modifier) ++ lowerString c.name.source ++
      fieldSource c.number := by
    change lowerString _ = _
    rw [lowerString_append, lowerString_append, h.lower_number]
  have hcolon : ':' ∉ (fieldSource c.modifier ++ c.name.source ++ fieldSource c.number).toList :=
    fun hmem ↦ (hfront _ hmem).2 rfl
  unfold spelling particleText
  cases hparticles : c.particles with
  | none =>
    rw [keyOf_head (by simp) (fun a ha ↦ (hfront a ha).1) hcolon, hlower]
    simp
  | some p =>
    obtain ⟨body, htoken, hbody, hparse⟩ := h.particles p hparticles
    have htext : (fieldSource c.modifier ++ c.name.source ++ fieldSource c.number ++
        ((some p).bind (·.token)).getD "").toList =
        (fieldSource c.modifier ++ c.name.source ++ fieldSource c.number).toList ++
        ':' :: body.toList := by
      rw [Option.bind_some, htoken]
      simp
    have hblank : ∀ a ∈ (fieldSource c.modifier ++ c.name.source ++ fieldSource c.number).toList ++
      body.toList,
        isBlank a = false :=
      List.forall_mem_append.mpr ⟨fun a ha ↦ (hfront a ha).1, hbody⟩
    rw [keyOf_particles htext hblank hcolon, hlower, ← ParticleList.key_of_parse? hparse]
    simp [String.append_assoc]

/-- The word of a classifier is its name as it is spelled. -/
theorem word_eq (h : c.IsWritten) : c.word = c.name.source := by
  rw [word, h.name]
  rfl

/-- The number of a classifier is printed in its shortest form. -/
theorem numberText_of_some (h : c.IsWritten) {f : Field} (hf : c.number = some f) :
    ∃ n, f.toInt? = some n ∧ Number.readInt? f.source = some n ∧ c.numberText = toString n := by
  obtain ⟨-, -, hsome, hread⟩ := h.number f hf
  obtain ⟨n, hn⟩ := Option.isSome_iff_exists.mp hsome
  refine ⟨n, hn, hread ▸ hn, ?_⟩
  rw [numberText, numberValue?, hf, Option.bind_some, hn]
  rfl

/-- The number of a name has no sign. -/
theorem range_of_some (h : c.IsWritten) {f : Field} (hf : c.number = some f) {n : Int}
    (hn : Number.readInt? f.source = some n) : n ≤ Number.maxInt ∧ 0 ≤ n := by
  obtain ⟨hne, hdigits, -, -⟩ := h.number f hf
  have hlist : f.source.toList ≠ [] := by simpa using hne
  have hread := Number.readInt?_digits hlist hdigits
  rw [String.ofList_toList, hn] at hread
  split_ifs at hread with hle
  obtain rfl := Option.some.inj hread
  exact ⟨hle, Int.natCast_nonneg _⟩

/-- The spelling of a plain classifier leads to its key. -/
theorem keyOf_eq_key (h : c.IsWritten) (hplain : c.isPlain = true) : keyOf c.spelling = c.key := by
  obtain ⟨hmodifier, hnumber⟩ := Bool.and_eq_true_iff.mp hplain
  rw [Option.isNone_iff_eq_none] at hmodifier
  have htext : fieldSource c.number = c.numberText := by
    cases hf : c.number with
    | none =>
      rw [numberText, numberValue?, hf]
      rfl
    | some f =>
      obtain ⟨n, hn, -, htext⟩ := h.numberText_of_some hf
      rw [hf, Option.all_some, hn, Option.all_some, beq_iff_eq] at hnumber
      exact hnumber.trans htext.symm
  rw [h.keyOf_spelling, key_eq, h.word_eq, hmodifier, htext]
  change "" ++ lowerString c.name.source ++ c.numberText ++ c.particleText = _
  rw [String.empty_append]

/-- A number in a key is digits. -/
theorem isDigit_numberText (h : c.IsWritten) : ∀ a ∈ c.numberText.toList, a.isDigit = true := by
  cases hf : c.number with
  | none => simp [numberText, numberValue?, hf]
  | some f =>
    obtain ⟨n, -, hread, htext⟩ := h.numberText_of_some hf
    obtain ⟨-, hnonneg⟩ := h.range_of_some hf hread
    rw [htext, toList_toString_int, if_neg (by omega), List.nil_append]
    exact isDigit_of_mem_toDigits

/-- A name has letters in lower case as well. -/
theorem isWordChar_lower {cs : List Char} (h : Lexer.IsName cs) :
    ∀ a ∈ lower cs, Lexer.isWordChar a = true := by
  have hblind : CaseBlind Lexer.isWordChar := caseBlind_of_capitals (by decide)
  intro a ha
  obtain ⟨b, hb, rfl⟩ := List.mem_map.mp ha
  exact (hblind b).trans (h.forall_mem b hb)

theorem head?_particleText (c : Classifier) : ∀ a ∈ c.particleText.toList.head?, a = ':' := by
  unfold particleText
  cases c.particles with
  | none => simp
  | some p => simp

/-- Behind a word stands a number or a colon. -/
theorem head?_digits {ds : List Char} (hds : ∀ a ∈ ds, a.isDigit = true) (c : Classifier) :
    ∀ a ∈ (ds ++ c.particleText.toList).head?, Lexer.isWordChar a = false := by
  cases ds with
  | nil =>
    intro a ha
    rw [head?_particleText c a ha]
    decide
  | cons d ds =>
    rintro _ ⟨⟩
    exact Lexer.eq_false_of_integerStarts (Lexer.mem_integerStarts (hds d List.mem_cons_self))
      Lexer.isWordChar (by decide)

theorem isDigit_head?_particleText (c : Classifier) :
    ∀ a ∈ c.particleText.toList.head?, a.isDigit = false := by
  intro a ha
  rw [head?_particleText c a ha]
  decide

/-- A key starts with a letter. -/
theorem modifier_eq_none (h : c.IsWritten) (hd : d.IsWritten) (heq : keyOf c.spelling = d.key) :
    c.modifier = none := by
  rw [h.keyOf_spelling, key_eq, hd.word_eq] at heq
  cases hmodifier : c.modifier with
  | none => rfl
  | some f =>
    have hmark : ∃ a, (lowerString f.source).toList = [a] ∧ Lexer.isWordChar a = false := by
      rcases h.modifier f hmodifier with hsource | hsource <;> rw [hsource]
      · exact ⟨'*', rfl, by decide⟩
      · exact ⟨'+', rfl, by decide⟩
    obtain ⟨a, hlist, hmark⟩ := hmark
    obtain ⟨b, bs, hname⟩ := List.exists_cons_of_ne_nil hd.isName.ne_nil
    have hhead := congrArg (fun s ↦ s.toList.head?) heq
    simp only [hmodifier, fieldSource, Option.map_some, Option.getD_some, String.toList_append,
      toList_lowerString, hname, lower_cons, List.cons_append, List.head?_cons] at hhead
    rw [← toList_lowerString, hlist] at hhead
    have hletter := isWordChar_lower hd.isName
    rw [hname] at hletter
    rw [Option.some.inj hhead, hletter _ List.mem_cons_self] at hmark
    cases hmark

theorem isPlain_of_keyOf_eq (h : c.IsWritten) (hd : d.IsWritten) (heq : keyOf c.spelling = d.key) :
    c.isPlain = true := by
  have hmodifier := h.modifier_eq_none hd heq
  rw [h.keyOf_spelling, key_eq, hd.word_eq, hmodifier] at heq
  have hlist : lower c.name.source.toList ++
    ((fieldSource c.number).toList ++ c.particleText.toList) =
      lower d.name.source.toList ++ (d.numberText.toList ++ d.particleText.toList) := by
    have hlist := congrArg String.toList heq
    simp only [String.toList_append, toList_lowerString, List.append_assoc] at hlist
    exact hlist
  obtain ⟨-, hrest⟩ := append_inj_of_run (isWordChar_lower h.isName) (isWordChar_lower hd.isName)
    (head?_digits h.isDigit_number c) (head?_digits hd.isDigit_numberText d) hlist
  obtain ⟨hdigits, -⟩ := append_inj_of_run h.isDigit_number hd.isDigit_numberText
    (isDigit_head?_particleText c) (isDigit_head?_particleText d) hrest
  have htext : fieldSource c.number = d.numberText := String.toList_inj.mp hdigits
  rw [isPlain, hmodifier]
  cases hf : c.number with
  | none => rfl
  | some f =>
    obtain ⟨n, hn, hread, -⟩ := h.numberText_of_some hf
    have hne := (h.number f hf).1
    rw [hf] at htext
    change f.source = d.numberText at htext
    cases hg : d.number with
    | none =>
      rw [numberText, numberValue?, hg] at htext
      exact absurd htext hne
    | some g =>
      obtain ⟨m, -, hread', htext'⟩ := hd.numberText_of_some hg
      obtain ⟨hle, hnonneg⟩ := hd.range_of_some hg hread'
      have hmin : Number.minInt ≤ m := le_trans (by decide) hnonneg
      have hsource : f.source = toString m := htext.trans htext'
      rw [hsource, Number.readInt?_toString ⟨hmin, hle⟩] at hread
      obtain rfl := Option.some.inj hread
      simp [hn, hsource]

end IsWritten

end Classifier

end TransportDeck
