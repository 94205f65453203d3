import TransportDeck.Proofs.Token.Nuclides
import TransportDeck.Proofs.Token.Relaying

/-!
# Gaps between words

What may stand between the words of a record without being one: blanks, marks of continuation and
comments that end with their lines.  A gap is lexed as layout wherever it is put behind a word, and
layout between words is a gap.
-/

namespace TransportDeck.Lexer

open Text

variable {mode : LexMode} {last : Bool} {margin : Option Nat} {c : Char} {as bs cs rest : List Char}
  {p : Position} {t : Token} {ts us : List Token}

/-- A gap behind a margin.  At the end of a record its last comment may stay open. -/
inductive Gap (last : Bool) : Option Nat → List Char → Prop where
  | nil {margin : Option Nat} : Gap last margin []
  | blank {margin : Option Nat} {c : Char} {cs : List Char} (blank : isAsciiBlank c = true)
      (rest : Gap last (marginStep margin c) cs) : Gap last margin (c :: cs)
  | mark {margin : Option Nat} {cs : List Char} (rest : Gap last none cs) :
      Gap last margin ('&' :: cs)
  | comment {margin : Option Nat} {c : Char} {body cs : List Char}
      (starts : c = '$' ∨ startsComment margin c (body ++ '\n' :: cs) = true)
        (one_line : '\n' ∉ body)
      (rest : Gap last (some 0) cs) : Gap last margin (c :: (body ++ '\n' :: cs))
  | opened {margin : Option Nat} {c : Char} {body : List Char} (at_end : last = true)
      (starts : c = '$' ∨ startsComment margin c body = true) (one_line : '\n' ∉ body) :
      Gap last margin (c :: body)

/-! ## Margins -/

/-- A comment is told by its mark and the character behind it. -/
theorem startsComment_line (margin : Option Nat) (c : Char) (body cs cs' : List Char) :
    startsComment margin c (body ++ '\n' :: cs) = startsComment margin c (body ++ '\n' :: cs') := by
  cases body <;> rfl

theorem marginAfter_append (margin : Option Nat) (as bs : List Char) :
    marginAfter margin (as ++ bs) = marginAfter (marginAfter margin as) bs := List.foldl_append

/-- What stands in front of a line does not matter. -/
theorem marginAfter_line (margin : Option Nat) (as bs : List Char) :
    marginAfter margin (as ++ '\n' :: bs) = marginAfter (some 0) bs := by
  rw [marginAfter_append]
  rfl

/-- Behind a word there is no margin. -/
theorem marginAfter_eq_none (h : ∃ d ∈ cs.getLast?, isAsciiBlank d = false) :
    marginAfter margin cs = none := by
  obtain ⟨d, hd, hsolid⟩ := h
  obtain ⟨as, rfl⟩ := List.getLast?_eq_some_iff.mp hd
  have hline : (d == '\n') = false := by
    rw [beq_eq_false_iff_ne]
    rintro rfl
    cases hsolid
  have hspace : (d == ' ') = false := by
    rw [beq_eq_false_iff_ne]
    rintro rfl
    cases hsolid
  rw [marginAfter_append, marginAfter, List.foldl_cons, List.foldl_nil, marginStep, hline, hspace]
  rfl

/-- No blank starts a comment. -/
theorem startsComment_of_isAsciiBlank (hc : isAsciiBlank c = true) (cs : List Char) :
    startsComment margin c cs = false := by
  refine startsComment_eq_false ?_ cs
  rw [Bool.or_eq_false_iff, beq_eq_false_iff_ne, beq_eq_false_iff_ne]
  constructor <;> rintro rfl <;> cases hc

theorem not_starts_of_isAsciiBlank (hc : isAsciiBlank c = true) :
    ¬(c = '$' ∨ startsComment margin c cs = true) := by
  rintro (rfl | hcomment)
  · cases hc
  · rw [startsComment_of_isAsciiBlank hc] at hcomment
    cases hcomment

namespace Gap

/-! ## Putting gaps together -/

theorem of_blanks (h : ∀ b ∈ bs, isAsciiBlank b = true) : Gap last margin bs := by
  induction bs generalizing margin with
  | nil => exact .nil
  | cons b bs ih =>
    obtain ⟨hb, hbs⟩ := List.forall_mem_cons.mp h
    exact .blank hb (ih hbs)

theorem append (h : Gap false margin as) (h' : Gap last (marginAfter margin as) bs) :
    Gap last margin (as ++ bs) := by
  induction h with
  | nil => exact h'
  | blank hc _ ih => exact .blank hc (ih h')
  | mark _ ih => exact .mark (ih h')
  | @comment margin c body cs starts one_line _ ih =>
    rw [← List.cons_append, marginAfter_line] at h'
    rw [List.cons_append, List.append_assoc, List.cons_append]
    exact .comment (starts.imp_right (startsComment_line margin c body _ _).trans) one_line (ih h')
  | opened at_end => cases at_end

/-- A gap behind a word is one at any other place. -/
theorem moved (h : Gap last none cs) (margin : Option Nat) : Gap last margin cs := by
  generalize hnone : (none : Option Nat) = m at h
  induction h generalizing margin with
  | nil => exact .nil
  | @blank m c cs hc rest ih =>
    subst hnone
    by_cases hline : (c == '\n') = true
    · rw [eq_of_beq hline] at rest ⊢
      exact .blank rfl rest
    · exact .blank hc (ih _ (by simp [marginStep, hline]))
  | mark rest => exact .mark rest
  | comment starts one_line rest =>
    subst hnone
    exact .comment (starts.imp_right fun hstarts ↦ by cases hstarts) one_line rest
  | opened at_end starts one_line =>
    subst hnone
    exact .opened at_end (starts.imp_right fun hstarts ↦ by cases hstarts) one_line

/-- Blanks in front of a gap that stands behind a word. -/
theorem blanks_append (hbs : ∀ b ∈ bs, isAsciiBlank b = true) (h : Gap last none cs) :
    Gap last margin (bs ++ cs) :=
  (of_blanks hbs).append (h.moved _)

theorem drop_blanks (hbs : ∀ b ∈ bs, isAsciiBlank b = true) (h : Gap last margin (bs ++ cs)) :
    Gap last (marginAfter margin bs) cs := by
  induction bs generalizing margin with
  | nil => exact h
  | cons b bs ih =>
    obtain ⟨hb, hbs⟩ := List.forall_mem_cons.mp hbs
    have hrest : Gap last (marginStep margin b) (bs ++ cs) := by
      generalize htext : b :: bs ++ cs = text at h
      cases h with
      | nil => cases htext
      | blank _ rest =>
        obtain ⟨rfl, rfl⟩ := List.cons.inj htext
        exact rest
      | mark =>
        obtain ⟨rfl, -⟩ := List.cons.inj htext
        cases hb
      | comment starts =>
        obtain ⟨rfl, -⟩ := List.cons.inj htext
        exact absurd starts (not_starts_of_isAsciiBlank hb)
      | opened _ starts =>
        obtain ⟨rfl, -⟩ := List.cons.inj htext
        exact absurd starts (not_starts_of_isAsciiBlank hb)
    exact ih hbs hrest

/-- Behind a word, blanks within the line may be taken away. -/
theorem drop_spaces (hbs : ∀ b ∈ bs, isAsciiBlank b = true) (hline : '\n' ∉ bs)
    (h : Gap last none (bs ++ cs)) :
    Gap last none cs := by
  have hrest := drop_blanks hbs h
  rwa [marginAfter_none hline] at hrest

/-- Words end in front of a gap. -/
theorem closes (h : Gap last none as) (hrest : as = [] → Closes rest) : Closes (as ++ rest) := by
  cases h with
  | nil => exact hrest rfl
  | blank hc => exact closes_of_endsLine hc
  | mark => exact closes_of_mem_breaks (by decide) _
  | comment starts =>
    obtain rfl : _ = '$' := starts.resolve_right nofun
    exact closes_dollar _
  | opened _ starts =>
    obtain rfl : _ = '$' := starts.resolve_right nofun
    exact closes_dollar _

end Gap

/-! ## Gaps as layout -/

theorem lexeme?_ampersand (hmode : mode ≠ .read) (cs : List Char) :
    lexeme? mode margin '&' cs = some (.ampersand, 1) := by
  have hcomment : startsComment margin '&' cs = false := startsComment_eq_false rfl cs
  have hword : wordLexeme? mode '&' cs = some (.ampersand, 1) := by cases mode <;> rfl
  unfold lexeme?
  rw [hcomment, if_neg hmode, hword]
  rfl

theorem toLineEnd_line (h : '\n' ∉ as) (hrest : ∀ d ∈ rest.head?, d = '\n') :
    toLineEnd (as ++ rest) = as.length :=
  run_append (fun d hd ↦ by simpa using ne_of_mem_of_not_mem hd h) fun d hd ↦ by
    simpa using hrest d hd

/-- A comment runs to the end of its line. -/
theorem exists_lexeme?_comment (mode : LexMode)
    (hstarts : c = '$' ∨ startsComment margin c (as ++ rest) = true) (h : '\n' ∉ as)
    (hrest : ∀ d ∈ rest.head?, d = '\n') :
    ∃ kind, kind.isLayout = true ∧ lexeme? mode margin c (as ++ rest) =
      some (kind, (c :: as).length) := by
  have hlength : 1 + toLineEnd (as ++ rest) = (c :: as).length := by
    rw [toLineEnd_line h hrest, List.length_cons, Nat.add_comm]
  by_cases hdollar : c = '$'
  · subst hdollar
    exact ⟨.inlineComment, rfl, by rw [← hlength]; rfl⟩
  · have hcomment := hstarts.resolve_left hdollar
    have hmark : c ≠ '#' := by
      rintro rfl
      rw [startsComment_eq_false rfl] at hcomment
      cases hcomment
    refine ⟨.comment, rfl, ?_⟩
    simp [lexeme?, hcomment, hmark, hdollar, ← hlength]

/-- In front of a word, or at the end, a gap is lexed as layout. -/
theorem Gap.exists_cuts (hmode : mode ≠ .read) (h : Gap last margin cs) (hrest : StartsSolid rest)
    (hlast : last = true → rest = []) (p : Position) :
    ∃ ls, Cuts mode margin p (cs ++ rest) ls rest ∧ ∀ t ∈ ls, t.isLayout = true := by
  induction hn : cs.length using Nat.strong_induction_on generalizing margin p cs with
  | _ n ih =>
    subst hn
    cases h with
    | nil => exact ⟨[], .done, by simp⟩
    | @blank _ c cs hc rest' =>
      -- The blanks that follow belong to the same token.
      have hall : ∀ b ∈ c :: cs.takeWhile isAsciiBlank, isAsciiBlank b = true :=
        List.forall_mem_cons.mpr ⟨hc, fun b hb ↦ List.mem_takeWhile_imp hb⟩
      have hwhole :
          Gap last margin (c :: cs.takeWhile isAsciiBlank ++ cs.dropWhile isAsciiBlank) := by
        rw [List.cons_append, List.takeWhile_append_dropWhile]
        exact .blank hc rest'
      have hgap := Gap.drop_blanks hall hwhole
      have hsolid : StartsSolid (cs.dropWhile isAsciiBlank ++ rest) := by
        intro d hd
        cases hdrop : cs.dropWhile isAsciiBlank with
        | nil =>
          rw [hdrop] at hd
          exact hrest d hd
        | cons e es =>
          have hhead := List.head?_dropWhile_not isAsciiBlank cs
          rw [hdrop] at hd hhead
          obtain rfl : e = d := Option.some.inj hd
          simpa using hhead
      have hlt : (cs.dropWhile isAsciiBlank).length < (c :: cs).length :=
        Nat.lt_succ_of_le (List.dropWhile_sublist _).length_le
      obtain ⟨ls, hls, hlayout⟩ := ih _ hlt hgap (p.advance (c :: cs.takeWhile isAsciiBlank)) rfl
      have hcuts := Cuts.cons (lexeme?_blanks hall hsolid) hls
      rw [← List.append_assoc, List.cons_append, List.takeWhile_append_dropWhile] at hcuts
      exact ⟨_, hcuts, List.forall_mem_cons.mpr ⟨rfl, hlayout⟩⟩
    | @mark _ cs rest' =>
      obtain ⟨ls, hls, hlayout⟩ := ih cs.length (Nat.lt_succ_self _) rest' (p.advance ['&']) rfl
      exact ⟨_, @Cuts.cons _ _ _ _ _ _ _ _ [] (lexeme?_ampersand hmode _) hls,
        List.forall_mem_cons.mpr ⟨rfl, hlayout⟩⟩
    | @comment _ c body cs starts one_line rest' =>
      have hgap : Gap last (marginAfter margin (c :: body)) ('\n' :: cs) := .blank rfl rest'
      obtain ⟨ls, hls, hlayout⟩ := ih ('\n' :: cs).length (by simp) hgap (p.advance (c :: body)) rfl
      have hstarts : c = '$' ∨ startsComment margin c (body ++ ('\n' :: cs ++ rest)) = true :=
        starts.imp_right (startsComment_line margin c body _ _).trans
      obtain ⟨kind, hkind, hlex⟩ :=
        exists_lexeme?_comment mode hstarts one_line (by rintro _ ⟨⟩; rfl)
      have hcuts := Cuts.cons hlex hls
      rw [← List.append_assoc] at hcuts
      exact ⟨_, hcuts, List.forall_mem_cons.mpr ⟨hkind, hlayout⟩⟩
    | @opened _ c body at_end starts one_line =>
      obtain rfl := hlast at_end
      have hstarts : c = '$' ∨ startsComment margin c (body ++ []) = true := by
        rwa [List.append_nil]
      obtain ⟨kind, hkind, hlex⟩ := exists_lexeme?_comment mode hstarts one_line (by simp)
      exact ⟨_, .cons hlex .done, List.forall_mem_singleton.mpr hkind⟩

/-! ## Layout as gaps -/

/-- Layout is a gap, unless a comment is open behind it and it is not at the end. -/
theorem gap_of_cuts (hmode : mode ≠ .read) (h : Cuts mode margin p cs ts rest)
    (hts : ∀ t ∈ ts, t.isLayout = true)
    (hlast : last = false → ∀ t ∈ ts.getLast?, t.kind.isComment = false) :
    Gap last margin (textOf ts).toList := by
  induction ts generalizing margin p cs with
  | nil => exact .nil
  | cons t ts ih =>
    have hcuts := h
    obtain ⟨kind, c, ds, cs', rfl, rfl, hlex, hrest⟩ := h.exists_of_cons
    obtain ⟨ht, hts⟩ := List.forall_mem_cons.mp hts
    have hgap := ih hrest hts fun hl u hu ↦ hlast hl u (by
      cases ts with
      | nil => cases hu
      | cons v ts => rwa [List.getLast?_cons_cons])
    rw [textOf_cons, String.toList_append, String.toList_ofList]
    by_cases hspace : kind = .space
    · obtain ⟨hc, hlength⟩ := (length_of_lexeme? hlex).2 hspace
      have hds : ∀ d ∈ ds, isAsciiBlank d = true := fun d hd ↦ by
        rw [List.length_cons, Nat.add_comm] at hlength
        have htake := take_run isAsciiBlank (ds ++ cs')
        rw [← Nat.add_left_cancel hlength, List.take_left] at htake
        exact List.mem_takeWhile_imp (htake ▸ hd)
      exact (Gap.of_blanks (List.forall_mem_cons.mpr ⟨hc, hds⟩)).append hgap
    by_cases hcomment : kind.isComment = true
    · have hstarts := mark_of_isComment hlex hcomment
      have hline : '\n' ∉ ds := by
        have := (isLexeme_of_lexeme? hlex).comment hcomment
        rw [List.length_cons, Nat.add_sub_cancel, List.take_left, List.mem_cons, not_or] at this
        exact this.2
      have hend := (length_of_lexeme? hlex).1 hcomment
      rw [List.length_cons, Nat.add_comm] at hend
      have hhead := stops_of_run (Nat.add_left_cancel hend).symm
      cases ts with
      | nil =>
        rw [textOf_nil, String.toList_empty, List.append_nil]
        refine .opened ?_ (hstarts.imp_right fun hs ↦ ?_) hline
        · by_contra hl
          have := hlast (by simpa using hl) _ List.getLast?_singleton
          rw [hcomment] at this
          cases this
        · -- The comment ends with its line.
          cases ds with
          | cons d ds => exact hs
          | nil =>
            unfold startsComment at hs ⊢
            split
            · simp only [Bool.and_eq_true] at hs ⊢
              exact ⟨hs.1, rfl⟩
            · exact hs
      | cons u ts =>
        obtain ⟨kind', d, es, cs'', rfl, rfl, -, -⟩ := hrest.exists_of_cons
        obtain rfl : d = '\n' := by simpa using hhead d rfl
        rw [textOf_cons, String.toList_append, String.toList_ofList, List.cons_append] at hgap ⊢
        have hfeed : ∀ b ∈ ['\n'], isAsciiBlank b = true := List.forall_mem_singleton.mpr rfl
        have hrest := Gap.drop_blanks hfeed hgap
        exact .comment (hstarts.imp_right (startsComment_line _ _ _ _ _).trans) hline hrest
    · have hkind : kind = .ampersand := by
        change kind.isLayout = true at ht
        revert ht hspace hcomment
        cases kind <;> simp [TokenKind.isLayout, TokenKind.isComment]
      subst hkind
      obtain ⟨rfl, hlength⟩ := ampersand_of_lexeme? hmode hlex
      obtain rfl : ds = [] := by simpa using hlength
      exact .mark (by rwa [marginAfter_eq_none ⟨'&', rfl, rfl⟩] at hgap)

/-- What is no layout starts with no blank. -/
theorem Cuts.startsSolid (h : Cuts mode margin p cs ts [])
    (hts : ∀ t ∈ ts.head?, t.isLayout = false) : StartsSolid (textOf ts).toList := by
  cases ts with
  | nil => simp [StartsSolid]
  | cons t ts =>
    obtain ⟨kind, c, ds, cs', -, rfl, hlex, -⟩ := h.exists_of_cons
    rw [textOf_cons, String.toList_append, String.toList_ofList]
    rintro _ ⟨⟩
    refine Bool.eq_false_iff.mpr fun hblank ↦ ?_
    rw [lexeme?_of_isAsciiBlank hblank] at hlex
    obtain rfl := (Prod.mk.inj (Option.some.inj hlex)).1
    cases hts _ rfl

/-- What stands in front of a word is a gap: behind a comment there is a line feed, which is
layout. -/
theorem Cuts.gap_in_front (hmode : mode ≠ .read) (h : Cuts mode margin p cs (ts ++ us) [])
    (hts : ∀ t ∈ ts, t.isLayout = true) (hus : ∀ u ∈ us.head?, u.isLayout = false) :
    Gap us.isEmpty margin (textOf ts).toList := by
  obtain ⟨mid, hcuts, hbehind⟩ := h.exists_of_append
  refine gap_of_cuts hmode hcuts hts fun hne t ht ↦ Bool.eq_false_iff.mpr fun hcomment ↦ ?_
  obtain ⟨u, us, rfl⟩ := List.exists_cons_of_ne_nil (l := us) (by simpa using hne)
  have hsolid := hbehind.startsSolid hus
  have hfeed := (bounds_of_cuts h t ht).comment hcomment
  obtain ⟨kind, d, es, cs', -, rfl, -, -⟩ := hbehind.exists_of_cons
  rw [textOf_cons, String.toList_append, String.toList_ofList] at hsolid hfeed
  obtain rfl := hfeed d rfl
  cases hsolid '\n' rfl

end TransportDeck.Lexer
