import TransportDeck.Proofs.Token.LongerTexts

/-!
# Records that lose a part

When a part of a record is taken out, the tokens in front of it and behind it stay as they are, if
something sets them apart and no comment comes about where they meet.
-/

namespace TransportDeck.Lexer

open Text

variable {cs ds rest : List Char} {c : Char} {n : Nat} {ts us ms vs : List Token} {t : Token}
  {p : Position} {margin : Option Nat} {kind : TokenKind} {mode : LexMode}

/-! ## Solid tokens -/

/-- What is neither layout nor a comment starts with no blank and no comment. -/
theorem starts_of_isSolid (h : lexeme? mode margin c cs = some (kind, n)) (hsolid : IsSolid kind) :
    isAsciiBlank c = false ∧ startsComment margin c cs = false := by
  unfold lexeme? at h
  split_ifs at h with hmark hdollar hcomment hblank
  · obtain rfl : c = '#' := by simpa using hmark
    exact ⟨rfl, startsComment_eq_false rfl cs⟩
  · obtain ⟨rfl, -⟩ := Prod.mk.inj (Option.some.inj h)
    exact absurd hsolid.2 (by decide)
  · obtain ⟨rfl, -⟩ := Prod.mk.inj (Option.some.inj h)
    exact absurd hsolid.2 (by decide)
  · obtain ⟨rfl, -⟩ := Prod.mk.inj (Option.some.inj h)
    exact absurd rfl hsolid.1
  · exact ⟨by simpa using hblank, by simpa using hcomment⟩
  · exact ⟨by simpa using hblank, by simpa using hcomment⟩

/-- Nor does it end with a blank. -/
theorem ends_of_isSolid (h : lexeme? .cell margin c (cs ++ rest) = some (kind, (c :: cs).length))
    (hsolid : IsSolid kind) : ∀ d ∈ (c :: cs).getLast?, isAsciiBlank d = false := by
  obtain ⟨hc, hcomment⟩ := starts_of_isSolid h hsolid
  intro d hd
  cases cs using List.reverseRec with
  | nil =>
    obtain rfl : c = d := Option.some.inj hd
    exact hc
  | append_singleton as e =>
    rw [← List.cons_append, List.getLast?_concat] at hd
    obtain rfl : e = d := Option.some.inj hd
    rw [← Bool.not_eq_true]
    intro hblank
    -- The scanners stop in front of a blank, so the lexeme would be shorter.
    have hcloses : Closes (e :: rest) := closes_of_endsLine hblank
    have hword : wordLexeme? .cell c (as ++ e :: rest) = some (kind, (c :: (as ++ [e])).length) ∨
        c = '#' := by
      rw [List.append_assoc, List.singleton_append] at h hcomment
      have hcell : ¬LexMode.cell = .read := by decide
      unfold lexeme? at h
      rw [hcomment, hc, if_neg hcell, if_neg Bool.false_ne_true, if_neg Bool.false_ne_true] at h
      split_ifs at h with hmark hdollar
      · exact .inr (by simpa using hmark)
      · obtain ⟨rfl, -⟩ := Prod.mk.inj (Option.some.inj h)
        exact absurd hsolid.2 (by decide)
      · exact .inl h
    rcases hword with hword | rfl
    · rw [wordLexeme?_of_closes hcloses] at hword
      have hle := (isLexeme_wordLexeme? hword).fits.2
      simp at hle
    · rw [lexeme?_complement] at h
      obtain ⟨-, hlength⟩ := Prod.mk.inj (Option.some.inj h)
      simp at hlength

theorem Cuts.starts_of_isSolid (h : Cuts mode margin p cs ts [])
    (hts : ∀ t ∈ ts.head?, IsSolid t.kind) :
    StartsSolid cs ∧ ∀ d ds, cs = d :: ds → startsComment margin d ds = false := by
  cases ts with
  | nil =>
    cases h
    exact ⟨by simp [StartsSolid], by simp⟩
  | cons t ts =>
    obtain ⟨kind, c, ds, cs', rfl, rfl, hlex, -⟩ := h.exists_of_cons
    obtain ⟨hc, hcomment⟩ := Lexer.starts_of_isSolid hlex (hts _ rfl)
    refine ⟨?_, ?_⟩
    · rintro _ ⟨⟩
      exact hc
    · intro d ds' heq
      obtain ⟨rfl, rfl⟩ := List.cons.inj heq
      exact hcomment

/-- In front of a solid token there is no comment. -/
theorem isComment_of_front (h : Cuts .cell margin p cs (ts ++ t :: us) []) (ht : IsSolid t.kind) :
    ∀ u ∈ ts.getLast?, u.kind.isComment = false := by
  intro u hu
  obtain ⟨mid, -, hrest⟩ := h.exists_of_append
  have hstart := (hrest.starts_of_isSolid (by rintro _ ⟨⟩; exact ht)).1
  obtain rfl : mid = (textOf (t :: us)).toList := by simpa using hrest.eq_append
  rw [← Bool.not_eq_true]
  intro hcomment
  have hline := (bounds_of_cuts h u hu).comment hcomment
  obtain ⟨d, ds, hds⟩ : ∃ d ds, (textOf (t :: us)).toList = d :: ds := by
    have hne := hrest.partitions.nonempty t List.mem_cons_self
    obtain ⟨d, ds, hds⟩ := List.exists_cons_of_ne_nil (l := t.text.toList) (by simpa using hne)
    exact ⟨d, _, by rw [textOf_cons, String.toList_append, hds, List.cons_append]⟩
  rw [hds] at hline hstart
  have hblank : isAsciiBlank d = false := hstart d rfl
  rw [hline d rfl] at hblank
  cases hblank

/-! ## Shorter records -/

theorem isShort_of_alike (h : List.Forall₂ Token.Alike ts us) (hshort : ∀ t ∈ ts, IsShort t) :
    ∀ u ∈ us, IsShort u := by
  induction h with
  | nil => simp
  | @cons t u ts us htu _ ih =>
    obtain ⟨ht, hts⟩ := List.forall_mem_cons.mp hshort
    refine List.forall_mem_cons.mpr ⟨?_, ih hts⟩
    rwa [IsShort, Token.isLayout, htu.kind_eq, htu.text_eq] at ht

/-- What stands in front of a part and behind it keeps its tokens when the part is taken out. -/
theorem exists_tokenize_without {source : String}
    (h : tokenize .cell source = .ok (us ++ t :: (ms ++ vs))) (ht : IsSolid t.kind)
    (hvs : ∀ v ∈ vs.head?, IsSolid v.kind) (hbreak : ∀ b ∈ (textOf us).toList.getLast?, b ∈ breaks)
    (hstart : ∀ d ds, (textOf vs).toList = d :: ds →
      startsComment (marginAfter (some 0) (textOf us).toList) d ds = false) :
    ∃ vs', tokenize .cell (textOf us ++ textOf vs) = .ok (us ++ vs') ∧
      List.Forall₂ Token.Alike vs vs' := by
  obtain ⟨hcuts, hshort, hcount⟩ := tokenize_eq_ok_iff.mp h
  have hfront := isComment_of_front hcuts ht
  obtain ⟨mid, hus, hrest⟩ := hcuts.exists_of_append
  rw [← List.cons_append] at hrest
  obtain ⟨behind, -, hbehind⟩ := hrest.exists_of_append
  obtain rfl : behind = (textOf vs).toList := by simpa using hbehind.eq_append
  obtain ⟨hsolid, hnone⟩ := hbehind.starts_of_isSolid hvs
  have hcut := hus.replace (by decide) (.inr hbreak) (.inr hbreak) fun u hu ↦
    ⟨fun hcomment ↦ absurd hcomment (by simp [hfront u hu]), fun _ ↦ hsolid⟩
  have hsame : ∀ margin,
    (∀ d ds, (textOf vs).toList = d :: ds → startsComment margin d ds = false) →
      Cuts.SameStart margin (marginAfter (some 0) (textOf us).toList) (textOf vs).toList := by
    intro margin hmargin
    cases hcs : (textOf vs).toList with
    | nil => trivial
    | cons d ds =>
      refine ⟨?_, (hmargin d ds hcs).trans (hstart d ds hcs).symm⟩
      rintro rfl
      rw [hcs] at hsolid
      cases hsolid ' ' rfl
  obtain ⟨vs', hvs', halike⟩ :=
    hbehind.moved (.inr (hsame _ hnone)) (Position.start.advance (textOf us).toList)
  refine ⟨vs', tokenize_eq_ok_iff.mpr ⟨?_, ?_, ?_⟩, halike⟩
  · rw [String.toList_append]
    exact hcut.append hvs'
  · exact List.forall_mem_append.mpr ⟨(List.forall_mem_append.mp hshort).1,
      isShort_of_alike halike fun v hv ↦ hshort v (by simp [hv])⟩
  · have := halike.length_eq
    simp only [List.length_append, List.length_cons] at hcount ⊢
    omega

theorem endsLine_of_forall (h : ∀ d ∈ cs, isAsciiBlank d = true) : endsLine cs = true := by
  cases cs with
  | nil => rfl
  | cons d ds => exact h d List.mem_cons_self

/-- Tokens are all of their text, if nothing but blanks stood behind them. -/
theorem Cuts.alone (h : Cuts .cell margin p cs ts rest) (hrest : Apart (textOf ts).toList rest) :
    Cuts .cell margin p (textOf ts).toList ts [] := by
  have hnil : Apart (textOf ts).toList [] := .inl rfl
  have hcut := h.replace (by decide) hrest hnil fun t ht ↦ ⟨by simp, by simp [StartsSolid]⟩
  rwa [List.append_nil] at hcut

/-- Only a run of blanks ends with a space, unless a comment does. -/
theorem Cuts.eq_nil_of_spaces (h : Cuts .cell margin p (cs ++ List.replicate n ' ') ts [])
    (hsolid : ∀ t ∈ ts.getLast?, IsSolid t.kind) : n = 0 := by
  by_contra hn
  obtain ⟨n, rfl⟩ := Nat.exists_eq_succ_of_ne_zero hn
  rw [List.replicate_succ', ← List.append_assoc] at h
  cases ts using List.reverseRecOn with
  | nil =>
    have := h.eq_append
    simp at this
  | append_singleton ts t =>
    have htext := h.eq_append
    obtain ⟨mid, -, hlast⟩ := h.exists_of_append
    obtain ⟨kind, c, ds, cs', -, rfl, hlex, -⟩ := hlast.exists_of_cons
    have hmem : ' ' ∈ (c :: ds).getLast? := by
      rw [textOf_append, textOf_cons, textOf_nil, String.append_empty, String.toList_append,
        String.toList_ofList, List.append_nil] at htext
      have hlist := congrArg List.getLast? htext
      rwa [List.getLast?_concat, List.getLast?_append_of_ne_nil _ (List.cons_ne_nil c ds),
        eq_comm] at hlist
    have hblank := ends_of_isSolid hlex (hsolid _ List.getLast?_concat) ' ' hmem
    cases hblank

/-- The spaces at the end of a record may be left out. -/
theorem exists_tokenize_trimmed (h : tokenize .cell (String.ofList (cs ++ List.replicate n ' ')) =
    .ok ts) (hlast : ∀ t ∈ ts.getLast?, t.kind.isComment = false)
    (hcs : ∀ d ∈ cs.getLast?, isAsciiBlank d = false) :
    ∃ fs gap, ts = fs ++ gap ∧
      (∀ t ∈ gap, t.isLayout = true) ∧ tokenize .cell (String.ofList cs) = .ok fs := by
  obtain ⟨hcuts, hshort, hcount⟩ := tokenize_eq_ok_iff.mp h
  have htext := hcuts.eq_append
  rw [String.toList_ofList, List.append_nil, eq_comm] at htext
  obtain ⟨fs, gap, rfl, hgap, hgapBlank, -, hbounds⟩ := exists_trimmed hcuts hlast
  obtain ⟨mid, hfs, hgapCuts⟩ := hcuts.exists_of_append
  obtain rfl : mid = (textOf gap).toList := by simpa using hgapCuts.eq_append
  have hfs := hfs.alone (.inl (endsLine_of_forall hgapBlank))
  rw [textOf_append, String.toList_append] at htext
  have hfsText : (textOf fs).toList = cs := by
    rcases List.append_eq_append_iff.mp htext with ⟨as, rfl, has⟩ | ⟨bs, hbs, hspaces⟩
    · cases as using List.reverseRecOn with
      | nil => rw [List.append_nil]
      | append_singleton as a =>
        have hblank := hgapBlank a (by rw [has]; simp)
        rw [hcs a (by rw [← List.append_assoc, List.getLast?_concat]; rfl)] at hblank
        cases hblank
    · have hb : bs = List.replicate bs.length ' ' := by
        refine List.eq_replicate_of_mem fun b hb ↦ ?_
        exact List.eq_of_mem_replicate (hspaces ▸ List.mem_append_left _ hb)
      have hhead : ' ' ∈ ((textOf gap).toList ++ [' ']).head? := by
        cases hg : (textOf gap).toList with
        | nil => rfl
        | cons g gs =>
          rw [hg] at hspaces
          obtain rfl : g = ' ' :=
            List.eq_of_mem_replicate (hspaces ▸ List.mem_append_right _ List.mem_cons_self)
          rfl
      -- A space may stand behind the last token, so it is neither a run of blanks nor a comment.
      have hsolid : ∀ t ∈ fs.getLast?, IsSolid t.kind := fun t ht ↦ by
        have hbound := hbounds [' '] t ht
        refine ⟨fun hspace ↦ ?_, ?_⟩
        · cases hbound.blank hspace ' ' hhead
        · rw [← Bool.not_eq_true]
          intro hcomment
          cases hbound.comment hcomment ' ' hhead
      rw [hbs, hb] at hfs
      have hzero := hfs.eq_nil_of_spaces hsolid
      rw [hbs, List.length_eq_zero_iff.mp hzero, List.append_nil]
  refine ⟨fs, gap, rfl, hgap, tokenize_eq_ok_iff.mpr ⟨?_, fun t ht ↦ hshort t (by simp [ht]), ?_⟩⟩
  · rwa [String.toList_ofList, ← hfsText]
  · simp only [List.length_append] at hcount
    omega

end TransportDeck.Lexer
