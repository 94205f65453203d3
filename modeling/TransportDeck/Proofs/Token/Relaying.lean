import TransportDeck.Proofs.Token.LongerTexts

/-!
# Blanks that become a new line

The blanks behind a word can be replaced by a line feed and an indent: the tokens stay, up to the
text of these blanks.  No word reaches over a blank, the line in front is no comment, and behind the
indent none starts.
-/

namespace TransportDeck

open Text

namespace Token

/-- The same token, but a run of blanks may be another one. -/
structure Relaid (t u : Token) : Prop where
  kind_eq : t.kind = u.kind
  text_eq : t.kind ≠ .space → t.text = u.text

variable {t u v : Token}

theorem Relaid.refl (t : Token) : Relaid t t := ⟨rfl, fun _ ↦ rfl⟩

theorem Relaid.trans (h : Relaid t u) (h' : Relaid u v) : Relaid t v :=
  ⟨h.kind_eq.trans h'.kind_eq, fun hspace ↦
    (h.text_eq hspace).trans (h'.text_eq (h.kind_eq ▸ hspace))⟩

theorem Alike.relaid (h : Alike t u) : Relaid t u := ⟨h.kind_eq, fun _ ↦ h.text_eq⟩

end Token

namespace Lexer

variable {mode : LexMode} {margin : Option Nat} {p : Position} {c b : Char} {kind : TokenKind}
  {n : Nat} {cs as rest : List Char} {ts : List Token}

/-! ## Blanks and words -/

/-- No word starts with a blank. -/
theorem wordLexeme?_of_isBlank (h : isBlank c = true) (cs : List Char) :
    wordLexeme? mode c cs = none := by
  have hnot {q : Char → Bool} (hq : blanks.all (!q ·) = true) : q c = false := by
    simpa using List.all_eq_true.mp hq c (mem_blanks_of_isBlank h)
  have hdigit : c.isDigit = false := hnot (by decide)
  have halpha : c.isAlpha = false := hnot (by decide)
  have hsign : isSign c = false := hnot (by decide)
  have hpoint : c ≠ '.' := by simpa using hnot (q := (· == '.')) (by decide)
  have hsymbol : isParticleSymbol c = false := hnot (by decide)
  have hmark : punctuation? c = none := by
    simpa using hnot (q := (punctuation? · |>.isSome)) (by decide)
  simp [wordLexeme?, nuclide?, thermalLaw?, numberWord?, number?, word, symbolLexeme?, digits,
    letters, sign, run, hdigit, halpha, hsign, hpoint, hsymbol, hmark]

/-- Nor does it reach over one. -/
theorem le_of_wordLexeme? (h : wordLexeme? mode c (as ++ b :: rest) = some (kind, n))
    (hb : isBlank b = true) : n ≤ (c :: as).length := by
  rw [wordLexeme?_of_closes (closes_of_isBlank hb rest)] at h
  exact (isSolid_wordLexeme? h).2.2

/-- What is neither a run of blanks nor a comment is the mark of a complement, or a word. -/
theorem solid_cases (hmode : mode ≠ .read) (h : lexeme? mode margin c cs = some (kind, n))
    (hsolid : IsSolid kind) : n = 1 ∨ wordLexeme? mode c cs = some (kind, n) := by
  unfold lexeme? at h
  split_ifs at h
  · exact .inl (Prod.mk.inj (Option.some.inj h)).2.symm
  · obtain ⟨rfl, -⟩ := Prod.mk.inj (Option.some.inj h)
    exact absurd hsolid.2 (by decide)
  · obtain ⟨rfl, -⟩ := Prod.mk.inj (Option.some.inj h)
    exact absurd hsolid.2 (by decide)
  · obtain ⟨rfl, -⟩ := Prod.mk.inj (Option.some.inj h)
    exact absurd rfl hsolid.1
  · exact .inr h

/-- A blank outside of comments is one that sets tokens apart. -/
theorem Cuts.isAsciiBlank_of_isBlank (hmode : mode ≠ .read) (h : Cuts mode margin p (b :: cs) ts [])
    (hb : isBlank b = true) : isAsciiBlank b = true := by
  cases ts with
  | nil => cases h
  | cons t ts =>
    obtain ⟨kind, c, ds, cs', heq, -, hlex, -⟩ := h.exists_of_cons
    obtain ⟨rfl, -⟩ := List.cons.inj heq
    unfold lexeme? at hlex
    split_ifs at hlex with hmark hdollar hcomment hblank
    · rw [eq_of_beq hmark] at hb
      cases hb
    · rw [eq_of_beq hdollar] at hb
      cases hb
    · unfold startsComment at hcomment
      split at hcomment
      · simp only [Bool.and_eq_true, Bool.or_eq_true, beq_iff_eq] at hcomment
        rcases hcomment.1.1 with rfl | rfl <;> cases hb
      · cases hcomment
    · exact hblank
    · rw [wordLexeme?_of_isBlank hb] at hlex
      cases hlex

/-! ## Lines of code -/

/-- The text `before ++ front` ends within the line `front`, behind a character that is no blank and
stands in no comment. -/
structure EndsInCode (before front : List Char) : Prop where
  starts_line : before = [] ∨ '\n' ∈ before.getLast?
  one_line : '\n' ∉ front
  unmarked : '$' ∉ front
  code : Line.isComment (String.ofList front) = false
  solid : ∃ d ∈ front.getLast?, isBlank d = false

namespace EndsInCode

variable {before front done : List Char}

theorem getLast?_append (h : EndsInCode before front) :
    ∃ d ∈ (before ++ front).getLast?, isBlank d = false := by
  obtain ⟨d, hd, hblank⟩ := h.solid
  exact ⟨d, by rw [List.getLast?_append, hd]; rfl, hblank⟩

/-- What has no line feed at the end of the text stands in its last line. -/
theorem exists_of_append (h : EndsInCode before front) (heq : done ++ c :: as = before ++ front)
    (hline : '\n' ∉ c :: as) : ∃ ds, done = before ++ ds ∧ front = ds ++ c :: as := by
  rcases List.append_eq_append_iff.mp heq with ⟨ds, hbefore, hrest⟩ | ⟨ds, hdone, hfront⟩
  · cases ds using List.reverseRecOn with
    | nil => exact ⟨[], by rw [hbefore, List.append_nil, List.append_nil], hrest.symm⟩
    | append_singleton ds d =>
      rcases h.starts_line with rfl | hlf
      · simp at hbefore
      · rw [hbefore, ← List.append_assoc, List.getLast?_concat] at hlf
        obtain rfl : d = '\n' := Option.some.inj hlf
        rw [hrest] at hline
        simp at hline
  · exact ⟨ds, hdone, hfront⟩

/-- No lexeme reaches over a blank behind the text. -/
theorem le_of_lexeme? (h : EndsInCode before front) (hmode : mode ≠ .read)
    (hlex : lexeme? mode (marginAfter (some 0) done) c (as ++ b :: rest) = some (kind, n))
    (heq : done ++ c :: as = before ++ front) (hb : isBlank b = true) : n ≤ (c :: as).length := by
  by_contra hlong
  rw [List.length_cons, not_le] at hlong
  have htaken : as <+: (as ++ b :: rest).take (n - 1) := by
    rw [List.take_append, List.take_of_length_le (by omega)]
    exact List.prefix_append _ _
  by_cases hcomment : kind.isComment = true
  · have hline : '\n' ∉ c :: as := fun hmem ↦ (isLexeme_of_lexeme? hlex).comment hcomment
      (List.Sublist.cons_cons c htaken.sublist |>.subset hmem)
    obtain ⟨ds, rfl, rfl⟩ := h.exists_of_append heq hline
    rcases mark_of_isComment hlex hcomment with rfl | hstarts
    · exact h.unmarked (by simp)
    · have hone := h.one_line
      rw [List.mem_append, not_or] at hone
      have hcode : Line.isComment (String.ofList (ds ++ c :: as)) = true :=
        isComment_of_startsComment_append h.starts_line hone.1 hstarts rfl
          (by rintro _ ⟨⟩; exact hb)
      rw [h.code] at hcode
      cases hcode
  by_cases hspace : kind = .space
  · obtain ⟨hc, hlength⟩ := (length_of_lexeme? hlex).2 hspace
    have hrun : (as ++ b :: rest).take (n - 1) = (as ++ b :: rest).takeWhile isAsciiBlank := by
      rw [hlength, Nat.add_sub_cancel_left]
      exact (List.prefix_iff_eq_take.mp (List.takeWhile_prefix _)).symm
    have hblanks : ∀ d ∈ c :: as, isAsciiBlank d = true := List.forall_mem_cons.mpr
      ⟨hc, fun d hd ↦ List.mem_takeWhile_imp (hrun ▸ htaken.subset hd)⟩
    obtain ⟨d, hd, hsolid⟩ := h.getLast?_append
    rw [← heq, List.getLast?_append_of_ne_nil _ (List.cons_ne_nil c as)] at hd
    rw [isBlank_of_isAsciiBlank (hblanks d (List.mem_of_getLast? hd))] at hsolid
    cases hsolid
  · rcases solid_cases hmode hlex ⟨hspace, by simpa using hcomment⟩ with rfl | hword
    · omega
    · have := le_of_wordLexeme? hword hb
      rw [List.length_cons] at this
      omega

end EndsInCode

/-- Tokens do not reach over the end of code with a blank behind it. -/
theorem Cuts.exists_of_endsInCode {before front : List Char} (done : List Char)
    (hmode : mode ≠ .read) (hcode : EndsInCode before front)
    (h : Cuts mode (marginAfter (some 0) done) p (cs ++ b :: rest) ts [])
    (heq : done ++ cs = before ++ front) (hb : isBlank b = true) :
    ∃ us vs, ts = us ++ vs ∧ (textOf us).toList = cs ∧
      Cuts mode (marginAfter (some 0) done) p (cs ++ b :: rest) us (b :: rest) ∧
      Cuts mode (marginAfter (marginAfter (some 0) done) cs) (p.advance cs) (b :: rest) vs [] := by
  induction ts generalizing done p cs with
  | nil =>
    have htext := h.eq_append
    simp at htext
  | cons t ts ih =>
    cases cs with
    | nil => exact ⟨[], t :: ts, rfl, rfl, .done, h⟩
    | cons c as =>
      obtain ⟨kind, c', ds, cs', htext, rfl, hlex, hts⟩ := h.exists_of_cons
      rw [List.cons_append, List.cons_append, List.cons.injEq] at htext
      obtain ⟨rfl, htext⟩ := htext
      rw [← htext] at hlex
      have hle : ds.length ≤ as.length := by simpa using hcode.le_of_lexeme? hmode hlex heq hb
      obtain ⟨as, rfl⟩ : ds <+: as :=
        List.prefix_of_prefix_length_le (htext ▸ List.prefix_append ds cs')
          (List.prefix_append _ _) hle
      rw [List.append_assoc] at htext
      obtain rfl := List.append_cancel_left htext
      have hmargin : marginAfter (marginAfter (some 0) done) (c :: ds) =
          marginAfter (some 0) (done ++ c :: ds) := by
        rw [marginAfter, marginAfter, marginAfter, List.foldl_append]
      rw [hmargin] at hts
      obtain ⟨us, vs, rfl, hus, hcuts, hvs⟩ := ih _ hts (by rw [← heq]; simp)
      refine ⟨_ :: us, vs, rfl, ?_, ?_, ?_⟩
      · rw [textOf_cons, String.toList_append, String.toList_ofList, hus, List.cons_append]
      · rw [← hmargin] at hcuts
        rw [List.append_assoc] at hlex
        simpa using Cuts.cons hlex hcuts
      · rw [← hmargin, ← Position.advance_append] at hvs
        rw [← List.cons_append, marginAfter, List.foldl_append]
        exact hvs

/-! ## Breaks -/

/-- The blanks between code and what stands behind them become a line feed and an indent. -/
inductive Breaks : List Char → List Char → Prop where
  | intro {before front gap back : List Char} {n : Nat} (code : EndsInCode before front)
      (gap_ne : gap ≠ [])
    (blank : ∀ b ∈ gap, isBlank b = true) (one_line : '\n' ∉ gap)
      (solid : ∃ c ∈ back.head?, isBlank c = false)
    (indent : Limits.continuationColumns ≤ n) :
    Breaks (before ++ front ++ (gap ++ back))
      (before ++ front ++ ('\n' :: List.replicate n ' ' ++ back))

theorem startsSolid_of_head? (h : ∃ c ∈ cs.head?, isBlank c = false) : StartsSolid cs := by
  obtain ⟨c, hc, hblank⟩ := h
  intro d hd
  obtain rfl : c = d := Option.some.inj (hc.symm.trans hd)
  rw [← Bool.not_eq_true]
  intro hd
  rw [isBlank_of_isAsciiBlank hd] at hblank
  cases hblank

/-- Blanks outside of comments are one token. -/
theorem Cuts.exists_gap {gap back : List Char} (hmode : mode ≠ .read)
    (h : Cuts mode margin p (gap ++ back) ts []) (hne : gap ≠ [])
    (hgap : ∀ b ∈ gap, isBlank b = true) (hback : ∃ c ∈ back.head?, isBlank c = false) :
    (∀ b ∈ gap, isAsciiBlank b = true) ∧ ∃ t us, ts = t :: us ∧ t.kind = .space ∧
      t.text.toList = gap ∧ Cuts mode (marginAfter margin gap) (p.advance gap) back us [] := by
  obtain ⟨b, gap, rfl⟩ := List.exists_cons_of_ne_nil hne
  obtain ⟨hb, hgap⟩ := List.forall_mem_cons.mp hgap
  have hascii : isAsciiBlank b = true := h.isAsciiBlank_of_isBlank hmode hb
  cases ts with
  | nil => cases h
  | cons t us =>
    have hall := isAsciiBlank_of_mem_space h
    obtain ⟨kind, c, ds, cs', htext, rfl, hlex, hus⟩ := h.exists_of_cons
    rw [List.cons_append, List.cons_append, List.cons.injEq] at htext
    obtain ⟨rfl, htext⟩ := htext
    obtain rfl : kind = .space :=
      (Prod.mk.inj (Option.some.inj (hlex.symm.trans (lexeme?_of_isAsciiBlank hascii _)))).1
    replace hall := hall rfl
    rw [String.toList_ofList] at hall
    have hds : ds = gap := by
      rcases List.append_eq_append_iff.mp htext with ⟨as, rfl, rfl⟩ | ⟨as, rfl, rfl⟩
      · cases as with
        | nil => rw [List.append_nil]
        | cons a as =>
          obtain ⟨c, hc, hblank⟩ := hback
          obtain rfl : a = c := Option.some.inj hc
          rw [isBlank_of_isAsciiBlank (hall a (by simp))] at hblank
          cases hblank
      · cases as with
        | nil => rw [List.append_nil]
        | cons a as =>
          have ha : isAsciiBlank a = true := hus.isAsciiBlank_of_isBlank hmode (hgap a (by simp))
          have hend := ((isLexeme_of_lexeme? hlex).blank rfl).2 a (by simp)
          rw [ha] at hend
          cases hend
    subst hds
    obtain rfl := List.append_cancel_left htext
    exact ⟨hall, _, us, rfl, rfl, String.toList_ofList, hus⟩

theorem marginAfter_none (h : '\n' ∉ cs) : marginAfter none cs = none := by
  induction cs with
  | nil => rfl
  | cons c cs ih =>
    rw [List.mem_cons, not_or] at h
    rw [marginAfter, List.foldl_cons, marginStep, if_neg (by simpa using Ne.symm h.1),
      Option.map_none, ite_self]
    exact ih h.2

theorem marginAfter_spaces (m n : Nat) :
    marginAfter (some m) (List.replicate n ' ') = some (m + n) := by
  induction n generalizing m with
  | zero => rfl
  | succ n ih =>
    rw [List.replicate_succ, marginAfter, List.foldl_cons]
    exact (ih (m + 1)).trans (congrArg some (by omega))

/-- Behind code there is no comment up to the end of the line. -/
theorem EndsInCode.marginAfter_eq_none {before front gap : List Char} (h : EndsInCode before front)
    (hline : '\n' ∉ gap) : marginAfter (marginAfter margin (before ++ front)) gap = none := by
  obtain ⟨d, hd, hsolid⟩ := h.getLast?_append
  obtain ⟨as, has⟩ := List.getLast?_eq_some_iff.mp hd
  have hlf : (d == '\n') = false := by
    rw [beq_eq_false_iff_ne]
    rintro rfl
    cases hsolid
  have hspace : (d == ' ') = false := by
    rw [beq_eq_false_iff_ne]
    rintro rfl
    cases hsolid
  have hnone : marginAfter margin (before ++ front) = none := by
    rw [has, marginAfter, List.foldl_append, List.foldl_cons,
      List.foldl_nil, marginStep, hlf, hspace]
    rfl
  rw [hnone, marginAfter_none hline]

/-- A break leaves the tokens as they are, up to the blanks that it replaces. -/
theorem Cuts.breaks {source broken : List Char} (hmode : mode ≠ .read)
    (h : Cuts mode (some 0) p source ts []) (hbreak : Breaks source broken) :
    ∃ us, Cuts mode (some 0) p broken us [] ∧ List.Forall₂ Token.Relaid ts us := by
  cases hbreak with
  | @intro before front gap back n code gap_ne blank one_line solid indent =>
    obtain ⟨b, gap', rfl⟩ := List.exists_cons_of_ne_nil gap_ne
    obtain ⟨as, bs, rfl, htext, has, hbs⟩ :=
      Cuts.exists_of_endsInCode [] hmode code h rfl (blank b List.mem_cons_self)
    obtain ⟨hascii, t, vs, rfl, hkind, ht, hvs⟩ := Cuts.exists_gap hmode hbs gap_ne blank solid
    have hfront : Cuts mode (some 0)
      p ((textOf as).toList ++ ('\n' :: List.replicate n ' ' ++ back)) as
        ('\n' :: List.replicate n ' ' ++ back) := by
      refine has.replace hmode (.inl (hascii b List.mem_cons_self)) (.inl rfl) fun u hu ↦
        ⟨fun _ d hd ↦ (Option.some.inj hd).symm, fun hspace ↦ ?_⟩
      -- Two runs of blanks cannot stand behind each other.
      have hstop := (bounds_of_cuts h u hu).blank hspace b
      rw [textOf_cons, String.toList_append, ht, hascii b List.mem_cons_self] at hstop
      cases hstop rfl
    have hgap : lexeme? mode (marginAfter (some 0) (before ++ front))
      '\n' (List.replicate n ' ' ++ back) =
        some (.space, ('\n' :: List.replicate n ' ').length) :=
      lexeme?_blanks
        (List.forall_mem_cons.mpr ⟨rfl, fun d hd ↦ by rw [List.eq_of_mem_replicate hd]; rfl⟩)
          (startsSolid_of_head? solid)
    have hmargin :
        marginAfter (marginAfter (some 0) (before ++ front))
          ('\n' :: List.replicate n ' ') = some n :=
      (marginAfter_spaces 0 n).trans (congrArg some (Nat.zero_add n))
    have hsame : SameStart (marginAfter (marginAfter (some 0) (before ++ front)) (b :: gap'))
        (marginAfter (marginAfter (some 0) (before ++ front)) ('\n' :: List.replicate n ' '))
          back := by
      rw [code.marginAfter_eq_none one_line, hmargin]
      obtain ⟨c, hc, hsolid⟩ := solid
      obtain ⟨back, rfl⟩ := List.head?_eq_some_iff.mp hc
      refine ⟨?_, by simp [startsComment, indent]⟩
      rintro rfl
      cases hsolid
    obtain ⟨us, hus, halike⟩ :=
      hvs.moved (.inr hsame) ((p.advance (before ++ front)).advance ('\n' :: List.replicate n ' '))
    have hbehind := Cuts.cons hgap hus
    rw [← htext] at hbehind
    have hall := hfront.append hbehind
    rw [htext] at hall
    refine ⟨_, hall, List.rel_append (List.forall₂_same.mpr fun u _ ↦ .refl u)
      (.cons ⟨hkind, ?_⟩ ?_)⟩
    · exact fun hspace ↦ absurd hkind hspace
    · exact halike.imp fun _ _ ↦ Token.Alike.relaid
theorem forall₂_relaid_trans {us vs : List Token} (h : List.Forall₂ Token.Relaid ts us)
    (h' : List.Forall₂ Token.Relaid us vs) : List.Forall₂ Token.Relaid ts vs := by
  induction h generalizing vs with
  | nil => exact h'
  | cons htu _ ih =>
    obtain _ | ⟨huv, hus⟩ := h'
    exact .cons (htu.trans huv) (ih hus)

/-- So do any number of breaks. -/
theorem Cuts.reflTransGen_breaks {source broken : List Char} (hmode : mode ≠ .read)
    (h : Cuts mode (some 0) p source ts []) (hbreaks : Relation.ReflTransGen Breaks source broken) :
    ∃ us, Cuts mode (some 0) p broken us [] ∧ List.Forall₂ Token.Relaid ts us := by
  induction hbreaks with
  | refl => exact ⟨ts, h, List.forall₂_same.mpr fun t _ ↦ .refl t⟩
  | tail _ hbreak ih =>
    obtain ⟨us, hus, hrelaid⟩ := ih
    obtain ⟨vs, hvs, hrelaid'⟩ := hus.breaks hmode hbreak
    exact ⟨vs, hvs, forall₂_relaid_trans hrelaid hrelaid'⟩

theorem isShort_of_relaid {us : List Token} (h : List.Forall₂ Token.Relaid ts us)
    (hshort : ∀ t ∈ ts, IsShort t) : ∀ u ∈ us, IsShort u := by
  induction h with
  | nil => simp
  | @cons t u ts us htu _ ih =>
    obtain ⟨ht, hts⟩ := List.forall_mem_cons.mp hshort
    refine List.forall_mem_cons.mpr ⟨?_, ih hts⟩
    by_cases hspace : t.kind = .space
    · exact .inl (by rw [Token.isLayout, ← htu.kind_eq, hspace]; rfl)
    · rwa [IsShort, Token.isLayout, htu.kind_eq, htu.text_eq hspace] at ht

/-- A record keeps its tokens through any number of breaks, up to the text of blanks. -/
theorem exists_tokenize_of_breaks {source broken : String} (hmode : mode ≠ .read)
    (hbreaks : Relation.ReflTransGen Breaks source.toList broken.toList)
    (h : tokenize mode source = .ok ts) :
    ∃ us, tokenize mode broken = .ok us ∧ List.Forall₂ Token.Relaid ts us := by
  obtain ⟨hcuts, hshort, hcount⟩ := tokenize_eq_ok_iff.mp h
  obtain ⟨us, hus, hrelaid⟩ := hcuts.reflTransGen_breaks hmode hbreaks
  exact ⟨us, tokenize_eq_ok_iff.mpr
    ⟨hus, isShort_of_relaid hrelaid hshort, hrelaid.length_eq ▸ hcount⟩, hrelaid⟩

end Lexer

end TransportDeck
