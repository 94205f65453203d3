import TransportDeck.Proofs.Grammar.Shifting
import TransportDeck.Proofs.Record.Removal
import TransportDeck.Proofs.Region.NarrowedPhrases

/-!
# Texts with one more operand

In the text of a record a number is put behind the chain that a geometry ends with, or a run there
is exchanged for its numbers.  The tokens in front and those behind stay as they are, and those
between are a phrase of the intersection.
-/

namespace TransportDeck

open Lexer Text

variable {margin : Option Nat} {p : Position} {cs rest : List Char} {t : Token}
  {fs ps rs qs ts us vs ls ws : List Token} {n : Int} {x : RegionTree} {tree : GeometryTree}

/-! ## Tokens at other places -/

theorem Token.Alike.trans {t u v : Token} (h : t.Alike u) (h' : u.Alike v) : t.Alike v :=
  ⟨h.kind_eq.trans h'.kind_eq, h.text_eq.trans h'.text_eq⟩

/-- Tokens at other places may be moved once more. -/
theorem forall₂_alike_trans (h : List.Forall₂ Token.Alike us vs)
    (h' : List.Forall₂ Token.Alike vs ws) : List.Forall₂ Token.Alike us ws := by
  induction h generalizing ws with
  | nil => exact h'
  | cons ht _ ih =>
    cases h' with
    | cons hu hrest => exact .cons (ht.trans hu) (ih hrest)

/-- Tokens at other places spell the same. -/
theorem spells_of_alike (h : List.Forall₂ Token.Alike us vs)
    (hlex : ∀ t ∈ us, Spells t.kind t.text) : ∀ t ∈ vs, Spells t.kind t.text := by
  induction h with
  | nil => exact hlex
  | cons ht _ ih =>
    obtain ⟨hfirst, hrest⟩ := List.forall_mem_cons.mp hlex
    exact List.forall_mem_cons.mpr ⟨ht.kind_eq ▸ ht.text_eq ▸ hfirst, ih hrest⟩

/-- Tokens that end a word end it at other places, too. -/
theorem EndsWord.alike (h : EndsWord us) (halike : List.Forall₂ Token.Alike us vs) :
    EndsWord vs := by
  cases halike with
  | nil => exact h
  | @cons t u us vs htu hrest =>
    rintro _ ⟨⟩
    rw [Token.isLayout, ← htu.kind_eq]
    exact h t rfl

/-! ## Texts that part -/

/-- Words end in front of layout and of what closes a group. -/
theorem EndsWord.closes (h : EndsWord ts) (hcuts : Cuts .cell none p cs ts []) : Closes cs := by
  cases ts with
  | nil =>
    cases hcuts
    exact closes_nil
  | cons t ts =>
    obtain ⟨kind, c, ds, cs', rfl, rfl, hlex, -⟩ := hcuts.exists_of_cons
    obtain hlayout | rfl : kind.isLayout = true ∨ kind = .rightParen := h _ rfl
    · have hcut : Cuts .cell none p (c :: ds ++ cs') [_] cs' := .cons hlex .done
      have hgap : Gap true none (textOf [_]).toList :=
        gap_of_cuts (by decide) hcut (List.forall_mem_singleton.mpr hlayout) nofun
      rw [textOf_cons, textOf_nil, String.append_empty, String.toList_ofList] at hgap
      exact hgap.closes nofun
    · have hspelled := (spells_lexeme? hlex).mark ")" rfl
      rw [List.length_cons, Nat.add_sub_cancel, List.take_left, ← String.toList_inj,
        String.toList_ofList] at hspelled
      rw [hspelled]
      exact closes_of_mem_breaks (by decide) _

namespace Lexer

/-- What starts a factor is solid. -/
theorem isSolid_of_startsFactor {kind : TokenKind} (h : kind.startsFactor = true) :
    IsSolid kind := by
  cases kind <;> first | decide | cases h

/-- A parenthesis is a token. -/
theorem exists_cuts_mark {c : Char} {kind : TokenKind} (hc : c = '(' ∨ c = ')' ∨ c = ':')
    (hkind : punctuation? c = some kind) (rest : List Char) (p : Position) :
    ∃ m, Cuts .cell margin p ([c] ++ rest)
      [m] rest ∧ m.kind = kind ∧ IsShort m ∧ Spells m.kind m.text := by
  have hmark : lexeme? .cell margin c rest = some (kind, 1) := lexeme?_mark hc hkind rest
  have hcuts : Cuts .cell margin p (c :: [] ++ rest) _ rest := .cons hmark .done
  refine ⟨_, hcuts, rfl, .inr ?_, spells_lexeme? hmark⟩
  rw [String.toList_ofList]
  rcases hc with rfl | rfl | rfl <;> decide

end Lexer

/-! ## Fronts -/

/-- No operand ends with a blank or with the letter of a comment. -/
theorem EndsOperand.exists_solid (h : EndsOperand ps) (hlex : ∀ t ∈ ps, Spells t.kind t.text) :
    ∃ d ∈ (textOf ps).toList.getLast?, isAsciiBlank d = false ∧
      (d == 'c' || d == 'C') = false := by
  obtain ⟨d, hd, hmem | ⟨rfl, -⟩⟩ := h.exists_last hlex
  · have hall : numeralEnds.all (fun d ↦ !isAsciiBlank d && !(d == 'c' || d == 'C')) = true := by
      decide
    have hsolid := List.all_eq_true.mp hall d hmem
    rw [Bool.and_eq_true, Bool.not_eq_true', Bool.not_eq_true'] at hsolid
    exact ⟨d, hd, hsolid⟩
  · exact ⟨')', hd, rfl, rfl⟩

theorem EndsOperand.marginAfter_eq (h : EndsOperand ps) (hlex : ∀ t ∈ ps, Spells t.kind t.text)
    (margin : Option Nat) : marginAfter margin (textOf ps).toList = none := by
  obtain ⟨d, hd, hblank, -⟩ := h.exists_solid hlex
  exact marginAfter_eq_none ⟨d, hd, hblank⟩

/-- An operand ends in front of whatever closes it. -/
theorem EndsOperand.severed (h : EndsOperand ps) (hlex : ∀ t ∈ ps, Spells t.kind t.text)
    (hrest : Closes rest) : Severed .cell (textOf ps).toList rest := by
  obtain ⟨d, hd, -, hletter⟩ := h.exists_solid hlex
  refine severed_of_closes hrest fun c hc ↦ ?_
  rwa [Option.mem_unique hc hd]

/-- Anything may stand behind an operand. -/
theorem EndsOperand.bounds (h : EndsOperand ps) (rest : List Char) :
    ∀ t ∈ ps.getLast?, Bounds t.kind rest := by
  obtain ⟨u, hu, hends⟩ := h
  intro t ht
  obtain rfl := Option.mem_unique hu ht
  constructor <;> intro hkind
  · generalize u.kind = kind at hends hkind
    cases kind <;> first | (cases hends; done) | cases hkind
  · rw [hkind] at hends
    cases hends

/-- Layout and parentheses end in front of anything, if they are no comment. -/
theorem IsOpen.severed (h : IsOpen ps) (hcuts : Cuts .cell margin p cs (ps ++ t :: qs) [])
    (ht : IsSolid t.kind) (hlex : ∀ t ∈ ps, Spells t.kind t.text) (rest : List Char) :
    Severed .cell (textOf ps).toList rest := by
  obtain ⟨u, hu, hopen⟩ := h
  have hcomment := isComment_of_front hcuts ht u hu
  obtain ⟨mid, hps, -⟩ := hcuts.exists_of_append
  refine Apart.severed (.inr ?_)
  rcases hopen with hlayout | hparen
  · exact hps.break_of_getLast? (by decide) hu hlayout hcomment
  · have htext : u.text = ")" :=
      (hlex u (List.mem_of_getLast? hu)).mark ")" (by rw [hparen]; rfl)
    intro d hd
    have hlast : ')' ∈ (textOf ps).toList.getLast? := mem_getLast?_textOf hu (by rw [htext]; rfl)
    obtain rfl := Option.mem_unique hlast hd
    decide

/-- Solid texts may stand in front of a solid token. -/
theorem bounds_of_front (h : Cuts .cell margin p cs (ps ++ t :: qs) []) (ht : IsSolid t.kind)
    (hrest : StartsSolid rest) : ∀ u ∈ ps.getLast?, Bounds u.kind rest := fun u hu ↦
  ⟨fun hkind ↦ by simp [isComment_of_front h ht u hu] at hkind, fun _ ↦ hrest⟩

/-! ## Numbers put in -/

namespace Lexer.Cuts

/-- Numbers behind an operand. -/
theorem insert_numerals {ns : List Int} (h : Cuts .cell margin p cs (ps ++ qs) [])
    (hlex : ∀ t ∈ ps, Spells t.kind t.text) (hends : EndsOperand ps) (hhead : EndsWord qs)
    (hne : ns ≠ []) (hns : ∀ n ∈ ns, Number.InRange n) : ∃ us qs',
      Cuts .cell margin p ((textOf ps).toList ++
        ((numeralText true ns).toList ++ (textOf qs).toList)) (ps ++ (us ++ qs')) [] ∧
      List.Forall₂ Token.Alike qs qs' ∧ Numerals true ns us ∧ ∀ u ∈ us, IsShort u := by
  obtain ⟨mid, -, hqs⟩ := h.exists_of_append
  obtain rfl : mid = (textOf qs).toList := by simpa using hqs.eq_append
  rw [hends.marginAfter_eq hlex] at hqs
  have hold := hhead.closes hqs
  have hnew : Closes ((numeralText true ns).toList ++ (textOf qs).toList) := by
    rw [numeralText_true, String.toList_append]
    exact closes_of_mem_breaks (by decide) _
  obtain ⟨d, hd, hdigit⟩ := exists_digit_of_numeralText true hne
  have hmargin : marginAfter none (numeralText true ns).toList = none :=
    marginAfter_eq_none ⟨d, hd, eq_false_of_isDigit hdigit isAsciiBlank (by decide)⟩
  obtain ⟨us, hus, hnumerals, hshort⟩ := exists_cuts_numerals true hne hns hold _
  have hexchanged : Cuts .cell margin p cs (ps ++ ([] ++ qs)) [] := h
  obtain ⟨qs', hcuts, halike⟩ := hexchanged.exchange (by decide) (hends.marginAfter_eq hlex margin)
    hus (hends.severed hlex hold) (hends.severed hlex hnew) (hends.bounds _) (.inl hmargin.symm)
  exact ⟨us, qs', hcuts, halike, hnumerals, hshort⟩

/-- Numbers in place of a run. -/
theorem exchange_run {ns : List Int} (h : Cuts .cell margin p cs (ps ++ t :: qs) [])
    (hlex : ∀ u ∈ ps ++ [t], Spells u.kind u.text) (hopen : IsOpen ps)
    (ht : t.kind.isShorthand = true) (hhead : EndsWord qs) (hne : ns ≠ [])
    (hns : ∀ n ∈ ns, Number.InRange n) : ∃ us qs',
      Cuts .cell margin p ((textOf ps).toList ++
        ((numeralText false ns).toList ++ (textOf qs).toList)) (ps ++ (us ++ qs')) [] ∧
      List.Forall₂ Token.Alike qs qs' ∧ Numerals false ns us ∧ ∀ u ∈ us, IsShort u := by
  rw [List.forall_mem_append, List.forall_mem_singleton] at hlex
  have hends : EndsOperand [t] := endsOperand_singleton (by
    cases hkind : t.kind <;> rw [hkind] at ht <;> first | rfl | cases ht)
  have hsolid : IsSolid t.kind := by
    cases hkind : t.kind <;> rw [hkind] at ht <;> first | exact isSolid_shorthand _ | cases ht
  have hrun (m : Option Nat) : marginAfter m (textOf [t]).toList = none :=
    hends.marginAfter_eq (List.forall_mem_singleton.mpr hlex.2) m
  have hexchanged : Cuts .cell margin p cs (ps ++ ([t] ++ qs)) [] := h
  obtain ⟨mid, -, hrest⟩ := hexchanged.exists_of_append
  obtain ⟨mid', -, hqs⟩ := hrest.exists_of_append
  obtain rfl : mid' = (textOf qs).toList := by simpa using hqs.eq_append
  rw [hrun] at hqs
  obtain ⟨d, hd, hdigit⟩ := exists_digit_of_numeralText false hne
  have hmargin (m : Option Nat) : marginAfter m (numeralText false ns).toList = none :=
    marginAfter_eq_none ⟨d, hd, eq_false_of_isDigit hdigit isAsciiBlank (by decide)⟩
  obtain ⟨us, hus, hnumerals, hshort⟩ := exists_cuts_numerals false hne hns (hhead.closes hqs) _
  obtain ⟨qs', hcuts, halike⟩ := hexchanged.exchange (by decide) rfl hus
    (hopen.severed h hsolid hlex.1 _) (hopen.severed h hsolid hlex.1 _)
    (bounds_of_front h hsolid ((isSolid_numeralText hne).startsSolid _))
    (.inl ((hrun _).trans (hmargin _).symm))
  exact ⟨us, qs', hcuts, halike, hnumerals, hshort⟩

/-- What closes a group behind an operand. -/
theorem insert_closing (h : Cuts .cell margin p cs (ps ++ qs) [])
    (hlex : ∀ t ∈ ps, Spells t.kind t.text) (hends : EndsOperand ps) (hhead : EndsWord qs) :
    ∃ m qs', Cuts .cell margin p ((textOf ps).toList ++ (')' :: (textOf qs).toList))
      (ps ++ m :: qs') [] ∧ List.Forall₂ Token.Alike qs qs' ∧ m.kind = .rightParen ∧ IsShort m ∧
      Spells m.kind m.text := by
  obtain ⟨mid, -, hqs⟩ := h.exists_of_append
  obtain rfl : mid = (textOf qs).toList := by simpa using hqs.eq_append
  rw [hends.marginAfter_eq hlex] at hqs
  have hnew : Closes ([')'] ++ (textOf qs).toList) := closes_of_mem_breaks (by decide) _
  obtain ⟨m, hm, hmark⟩ := exists_cuts_mark (.inr (.inl rfl)) rfl (textOf qs).toList _
  have hexchanged : Cuts .cell margin p cs (ps ++ ([] ++ qs)) [] := h
  obtain ⟨qs', hcuts, halike⟩ := hexchanged.exchange (by decide) (hends.marginAfter_eq hlex margin)
    hm (hends.severed hlex (hhead.closes hqs)) (hends.severed hlex hnew) (hends.bounds _) (.inl rfl)
  exact ⟨m, qs', hcuts, halike, hmark⟩

/-- What opens a group behind layout, or where the group starts with a mark. -/
theorem insert_opening (h : Cuts .cell margin p cs (ps ++ qs) [])
    (hqs : ∃ t ∈ qs.head?, IsSolid t.kind) (hlex : ∀ t ∈ ps, Spells t.kind t.text)
    (hfront : IsOpen ps ∨ EndsOperand ps ∧ Closes (textOf qs).toList) : ∃ m qs',
      Cuts .cell margin p ((textOf ps).toList ++ ('(' :: (textOf qs).toList)) (ps ++ m :: qs') [] ∧
        List.Forall₂ Token.Alike qs qs' ∧ m.kind = .leftParen ∧ IsShort m ∧
        Spells m.kind m.text := by
  obtain ⟨t, ht, hsolid⟩ := hqs
  obtain ⟨us, rfl⟩ := List.head?_eq_some_iff.mp ht
  obtain ⟨mid, -, hus⟩ := h.exists_of_append
  obtain rfl : mid = (textOf (t :: us)).toList := by simpa using hus.eq_append
  have hnew : Closes (['('] ++ (textOf (t :: us)).toList) := by
    rintro _ ⟨⟩
    decide
  have hsevered : Severed .cell (textOf ps).toList (textOf ([] ++ t :: us)).toList ∧
      Severed .cell (textOf ps).toList (['('] ++ (textOf (t :: us)).toList) := by
    rcases hfront with hopen | ⟨hends, hold⟩
    · exact ⟨hopen.severed h hsolid hlex _, hopen.severed h hsolid hlex _⟩
    · exact ⟨hends.severed hlex hold, hends.severed hlex hnew⟩
  obtain ⟨hstart, hnone⟩ := hus.starts_of_isSolid (by rintro _ ⟨⟩; exact hsolid)
  obtain ⟨m, hm, hmark⟩ := exists_cuts_mark (.inl rfl) rfl (textOf (t :: us)).toList _
  have hexchanged : Cuts .cell margin p cs (ps ++ ([] ++ t :: us)) [] := h
  obtain ⟨qs', hcuts, halike⟩ := hexchanged.exchange (by decide) rfl hm hsevered.1 hsevered.2
    (bounds_of_front h hsolid (by rintro _ ⟨⟩; rfl)) (.inr (by
      cases htext : (textOf (t :: us)).toList with
      | nil => trivial
      | cons d ds =>
        rw [htext] at hstart
        refine ⟨?_, hnone d ds htext⟩
        rintro rfl
        cases hstart ' ' rfl))
  exact ⟨m, qs', hcuts, halike, hmark⟩

end Lexer.Cuts

/-! ## Narrowed geometries -/

/-- No word runs into what stands behind the numbers, unless they stand right in front of a
parameter. -/
theorem endsWord_behind {bs : List Token} {gap : Bool} {ns : List Int} (hbs : EndsWord bs)
    (hls : AllLayout ls) (hns : ns ≠ []) (text : String)
    (hws : ws = [] ∨ ∀ d ∈ (text ++ (numeralText gap ns ++ textOf bs) ++ textOf ls).toList.getLast?,
      d.isDigit = false) : EndsWord (bs ++ (ls ++ ws)) := by
  cases bs with
  | cons b bs => exact hbs
  | nil =>
    cases ls with
    | cons l ls =>
      rintro _ ⟨⟩
      exact .inl (hls l List.mem_cons_self)
    | nil =>
      rcases hws with rfl | hws
      · rintro _ ⟨⟩
      · obtain ⟨d, hd, hdigit⟩ := exists_digit_of_numeralText gap hns
        rw [textOf_nil, String.append_empty, String.append_empty, String.toList_append,
          List.getLast?_append, Option.mem_def.mp hd] at hws
        rw [hws d rfl] at hdigit
        cases hdigit

/-- A union is put into parentheses before a number is put behind it. -/
theorem Phrase.narrow_union {e : Option Value} {m m' : Token} (h : Phrase .union x e us)
    (hm : m.kind = .leftParen) (hm' : m'.kind = .rightParen) (hvs : Numerals true [n] vs) :
    ∃ e', Phrase .union (.join .and x (.unit (.surface n))) e' (m :: (us ++ [m'] ++ vs)) := by
  have hnil := RegionTree.allLayout_nil
  have hgroup : Phrase .group x e (m :: ([] ++ (us ++ ([] ++ [m'])))) := .group hm hnil h hnil hm'
  have hchain : Phrase .intersection x e _ := .ofFactor (.ofGroup hgroup)
  obtain ⟨e', hphrase⟩ := hchain.append_numerals hnil hvs
  exact ⟨e', .ofIntersection (by simpa using hphrase)⟩

/-- A union is narrowed in parentheses. -/
theorem GeometryTree.Told.narrowText_asOperand (h : tree.Told .union x us)
    (hunion : tree.isUnion = true) (n : Int) : tree.asOperand.narrowText n .standard =
      "(" ++ (textOf us ++ (")" ++ numeralText true [n])) := by
  have hchain : tree.asOperand.isChain = false := by
    rw [asOperand_of_isUnion hunion]
    cases tree with
    | binary op l mark r => cases op <;> first | rfl | cases hunion
    | leaf | run | complement | group => cases hunion
  rw [narrowText_of_isChain_eq_false n .standard hchain, asOperand_of_isUnion hunion, render]
  simp [h.text, String.append_assoc]

/-- The numbers that a room is for are tokens there, and those around them stay as they are. -/
theorem Room.exists_cuts {level : PhraseLevel} {gap : Bool} {ns : List Int} {as bs : List Token}
    (hroom : Room level x n gap ns as rs bs)
    (h : Cuts .cell margin p cs (fs ++ (as ++ (rs ++ bs) ++ vs)) [])
    (hlex : ∀ t ∈ fs ++ (as ++ (rs ++ bs)), Spells t.kind t.text) (hn : Number.InRange n)
    (hhead : EndsWord (bs ++ vs)) : ∃ us qs,
      Cuts .cell margin p ((textOf (fs ++ as)).toList ++
        ((numeralText gap ns).toList ++ (textOf (bs ++ vs)).toList)) (fs ++ as ++ (us ++ qs)) [] ∧
      List.Forall₂ Token.Alike (bs ++ vs) qs ∧ Numerals gap ns us ∧ ∀ u ∈ us, IsShort u := by
  have hns : ∀ m ∈ ns, Number.InRange m := fun m hm ↦
    (hroom.inRange m hm).elim (fun heq ↦ heq ▸ hn) id
  simp only [List.forall_mem_append] at hlex
  obtain ⟨hlexf, hlexa, hlexr, -⟩ := hlex
  have hlexfa := List.forall_mem_append.mpr ⟨hlexf, hlexa⟩
  cases gap with
  | true =>
    obtain ⟨rfl, hends⟩ := hroom.behind_gap rfl
    have hcuts : Cuts .cell margin p cs (fs ++ as ++ (bs ++ vs)) [] := by simpa using h
    exact hcuts.insert_numerals hlexfa (hends.append_left fs) hhead hroom.ne_nil hns
  | false =>
    obtain ⟨hopen, t, rfl, ht⟩ := hroom.behind_open rfl
    have hcuts : Cuts .cell margin p cs (fs ++ as ++ t :: (bs ++ vs)) [] := by simpa using h
    exact hcuts.exchange_run (List.forall_mem_append.mpr ⟨hlexfa, hlexr⟩) (hopen.append_left fs) ht
      hhead hroom.ne_nil hns

/-- The text is lexed as a phrase that describes the region, between tokens that stay as they
are. -/
def CutsPhrase (margin : Option Nat) (p : Position) (fs : List Token) (text : String)
    (vs : List Token) (x : RegionTree) : Prop :=
  ∃ us vs' z e, Cuts .cell margin p
      ((textOf fs).toList ++ (text.toList ++ (textOf vs).toList)) (fs ++ (us ++ vs')) [] ∧
    List.Forall₂ Token.Alike vs vs' ∧ Phrase .union z e us ∧ z.Agrees x ∧
    ∀ t ∈ fs ++ (us ++ vs'), IsShort t

section

variable (htold : tree.Told .union x us) (hls : AllLayout ls)
  (h : Cuts .cell margin p cs (fs ++ (us ++ (ls ++ ws))) [])
  (hlex : ∀ t ∈ fs ++ (us ++ (ls ++ ws)), Spells t.kind t.text)
  (hshort : ∀ t ∈ fs ++ (us ++ (ls ++ ws)), IsShort t) (hn : Number.InRange n)

include htold hls h hlex hshort hn

/-- Numbers are put behind what is no union, or inside its last parentheses. -/
theorem cutsPhrase_of_chain (hunion : tree.isUnion = false)
    (hws : ws = [] ∨ ∀ d ∈ (tree.narrowText n .standard ++ textOf ls).toList.getLast?,
      d.isDigit = false) :
    CutsPhrase margin p fs (tree.narrowText n .standard) (ls ++ ws)
      (.join .and x (.unit (.surface n))) := by
  rw [← List.append_assoc, List.forall_mem_append] at hlex
  simp only [List.forall_mem_append] at hshort
  obtain ⟨hshortf, hshortu, hshortv⟩ := hshort
  obtain ⟨gap, ns, as, rs, bs, rfl, hroom, htext⟩ := htold.exists_room hunion n
  rw [htext] at hws ⊢
  have hhead := endsWord_behind hroom.head hls hroom.ne_nil (textOf as) hws
  obtain ⟨us', qs', hcuts, halike, hnumerals, hnew⟩ := hroom.exists_cuts h hlex.1 hn hhead
  obtain ⟨bs', vs', rfl, hbs, hvs⟩ := exists_of_alike_append halike
  obtain ⟨z, e, hz, hphrase⟩ := hroom.phrase us' hnumerals
  refine ⟨as ++ (us' ++ bs'), vs', z, e, by simpa using hcuts, hvs, hphrase.alike ?_, hz, ?_⟩
  · exact List.rel_append (List.forall₂_same.mpr fun _ _ ↦ ⟨rfl, rfl⟩)
      (List.rel_append (List.forall₂_same.mpr fun _ _ ↦ ⟨rfl, rfl⟩) hbs)
  · simp only [List.forall_mem_append] at hshortu ⊢
    exact ⟨hshortf, ⟨hshortu.1, hnew, isShort_of_alike hbs hshortu.2.2⟩,
      isShort_of_alike hvs (List.forall_mem_append.mpr hshortv)⟩

/-- A union is enclosed first, from the left to the right. -/
theorem cutsPhrase_of_union (hunion : tree.isUnion = true)
    (hfront : IsOpen fs ∨ EndsOperand fs ∧ Closes (textOf (us ++ (ls ++ ws))).toList)
    (hws : ws = [] ∨ ∀ d ∈ (tree.asOperand.narrowText n .standard ++ textOf ls).toList.getLast?,
      d.isDigit = false) :
    CutsPhrase margin p fs (tree.asOperand.narrowText n .standard) (ls ++ ws)
      (.join .and x (.unit (.surface n))) := by
  simp only [List.forall_mem_append] at hlex hshort
  obtain ⟨hlexf, hlexu, -⟩ := hlex
  obtain ⟨hshortf, hshortu, hshortv⟩ := hshort
  rw [htold.narrowText_asOperand hunion] at hws ⊢
  have hdigit : ws = [] ∨ ∀ d ∈ ("(" ++ (textOf us ++ ")") ++
      (numeralText true [n] ++ textOf []) ++ textOf ls).toList.getLast?, d.isDigit = false := by
    simpa [String.append_assoc] using hws
  have hend : EndsWord ([] ++ (ls ++ ws)) :=
    endsWord_behind (by rintro _ ⟨⟩) hls (List.cons_ne_nil n []) _ hdigit
  obtain ⟨t, us₀, hus, ht⟩ := htold.phrase.exists_head
  obtain ⟨m, qs, hopened, halike, hm, hmShort, hmLex⟩ := h.insert_opening
    ⟨t, by rw [hus]; rfl, isSolid_of_startsFactor ht⟩ hlexf hfront
  obtain ⟨us₁, vs₁, rfl, hus₁, hvs₁⟩ := exists_of_alike_append halike
  have hphrase : Phrase .union x _ us₁ := htold.phrase.alike hus₁
  have hlexs : ∀ t ∈ fs ++ m :: us₁, Spells t.kind t.text :=
    List.forall_mem_append.mpr
      ⟨hlexf, List.forall_mem_cons.mpr ⟨hmLex, spells_of_alike hus₁ hlexu⟩⟩
  rw [← List.cons_append, ← List.append_assoc fs] at hopened
  obtain ⟨m', vs₂, hclosed, hvs₂, hm', hmShort', hmLex'⟩ := hopened.insert_closing hlexs
    ((hphrase.endsOperand.append_left [m]).append_left fs) (hend.alike hvs₁)
  have hvs₂ := forall₂_alike_trans hvs₁ hvs₂
  rw [List.append_cons _ m'] at hclosed
  have hends : EndsOperand (fs ++ m :: us₁ ++ [m']) :=
    (endsOperand_singleton (by rw [hm']; rfl)).append_left _
  obtain ⟨us₂, vs₃, hcuts, hvs₃, hnumerals, hnew⟩ := hclosed.insert_numerals
    (List.forall_mem_append.mpr ⟨hlexs, List.forall_mem_singleton.mpr hmLex'⟩) hends
    (hend.alike hvs₂) (List.cons_ne_nil n []) (List.forall_mem_singleton.mpr hn)
  obtain ⟨e', hnarrowed⟩ := hphrase.narrow_union hm hm' hnumerals
  have hvs₃ := forall₂_alike_trans hvs₂ hvs₃
  refine ⟨m :: (us₁ ++ [m'] ++ us₂), vs₃, _, e', ?_, hvs₃, hnarrowed, .refl _, ?_⟩
  · have hopening : "(".toList = ['('] := rfl
    have hclosing : ")".toList = [')'] := rfl
    have hmText : m.text = "(" := hmLex.mark _ (by rw [hm]; rfl)
    have hmText' : m'.text = ")" := hmLex'.mark _ (by rw [hm']; rfl)
    simpa [hopening, hclosing, hmText, hmText', Token.textOf_eq hus₁,
      Token.textOf_eq hvs₂] using hcuts
  · have husShort := isShort_of_alike hus₁ hshortu
    have hvsShort := isShort_of_alike hvs₃ (List.forall_mem_append.mpr hshortv)
    simp only [List.forall_mem_append, List.forall_mem_cons] at hnew husShort ⊢
    exact ⟨hshortf, ⟨hmShort, ⟨husShort, hmShort', nofun⟩, hnew⟩, hvsShort⟩

/-- The text of the narrowed geometry is lexed as a phrase. -/
theorem cutsPhrase_narrowText
    (hfront : tree.isUnion = true →
      IsOpen fs ∨ EndsOperand fs ∧ Closes (textOf (us ++ (ls ++ ws))).toList)
    (hws : ws = [] ∨ ∀ d ∈ (tree.asOperand.narrowText n .standard ++ textOf ls).toList.getLast?,
      d.isDigit = false) :
    CutsPhrase margin p fs (tree.asOperand.narrowText n .standard) (ls ++ ws)
      (.join .and x (.unit (.surface n))) := by
  cases hunion : tree.isUnion with
  | false =>
    rw [GeometryTree.asOperand_eq_self hunion] at hws ⊢
    exact cutsPhrase_of_chain htold hls h hlex hshort hn hunion hws
  | true => exact cutsPhrase_of_union htold hls h hlex hshort hn hunion (hfront hunion) hws

end

end TransportDeck
