import TransportDeck.Proofs.Token.Names

/-!
# Records that go on

A text that is put behind a record leaves its tokens as they are if it is set apart from them and no
comment is open at the end.  Whether one is shows in the last line.
-/

namespace TransportDeck

open Text

/-! ## Open comments -/

namespace Lexer

variable {mode : LexMode} {cs ds rest : List Char} {c : Char} {n : Nat}
  {ts : List Token} {p : Position}

/-- The margin of a line is the number of its spaces, if there is nothing else. -/
theorem eq_replicate_of_marginAfter (h : marginAfter (some 0) cs = some n) (hline : '\n' ∉ cs) :
    cs = List.replicate n ' ' := by
  induction cs using List.reverseRecOn generalizing n with
  | nil =>
    obtain rfl := Option.some.inj h
    rfl
  | append_singleton cs c ih =>
    rw [List.mem_append, not_or, List.mem_singleton] at hline
    rw [marginAfter, List.foldl_append, List.foldl_cons, List.foldl_nil, marginStep,
      if_neg (by simpa using Ne.symm hline.2)] at h
    split_ifs at h with hc
    obtain ⟨m, hm, rfl⟩ := Option.map_eq_some_iff.mp h
    rw [ih hm hline.1, List.replicate_succ', eq_of_beq hc]

theorem marginAfter_of_getLast? {margin : Option Nat} (h : '\n' ∈ cs.getLast?) :
    marginAfter margin cs = some 0 := by
  obtain ⟨ds, rfl⟩ := List.getLast?_eq_some_iff.mp h
  rw [marginAfter, List.foldl_append]
  rfl

/-- A comment that starts a line is one to the reader, too. -/
theorem isComment_of_startsComment (h : startsComment (some n) c ds = true) :
    Line.isComment (String.ofList (List.replicate n ' ' ++ c :: ds)) = true := by
  simp only [startsComment, Bool.and_eq_true, decide_eq_true_eq] at h
  obtain ⟨⟨hc, hn⟩, hends⟩ := h
  have hblank : isBlank c = false := by
    rw [Bool.or_eq_true, beq_iff_eq, beq_iff_eq] at hc
    rcases hc with rfl | rfl <;> rfl
  have hspaces : ∀ d ∈ List.replicate n ' ', isBlank d = true := fun d hd ↦ by
    rw [List.eq_of_mem_replicate hd]
    rfl
  have hsize (n : Nat) : byteSize (List.replicate n ' ') = n := by
    induction n with
    | zero => rfl
    | succ n ih =>
      change 1 + byteSize (List.replicate n ' ') = n + 1
      rw [ih, Nat.add_comm]
  have hword : Line.endsWord ds = true := by
    cases ds with
    | nil => rfl
    | cons d ds => exact isBlank_of_endsLine hends
  unfold Line.isComment
  simp only [String.toList_ofList]
  rw [List.takeWhile_append_of_pos hspaces, List.dropWhile_append_of_pos hspaces,
    List.takeWhile_cons_of_neg (by simp [hblank]), List.dropWhile_cons_of_neg (by simp [hblank]),
    List.append_nil, hsize]
  simp only [hc, hword, hn, decide_true, Bool.and_self]

/-- A comment starts with its mark. -/
theorem mark_of_isComment {kind : TokenKind} {margin : Option Nat}
    (h : lexeme? mode margin c ds = some (kind, n)) (hkind : kind.isComment = true) :
    c = '$' ∨ startsComment margin c ds = true := by
  unfold lexeme? at h
  split_ifs at h with hmark hdollar hcomment hblank hread
  · obtain ⟨rfl, -⟩ := Prod.mk.inj (Option.some.inj h)
    cases hkind
  · exact .inl (eq_of_beq hdollar)
  · exact .inr hcomment
  · obtain ⟨rfl, -⟩ := Prod.mk.inj (Option.some.inj h)
    cases hkind
  · have hsolid := (isSolid_fileLexeme c ds).1.2
    rw [Option.some.inj h, hkind] at hsolid
    cases hsolid
  · have hsolid := (isSolid_wordLexeme? h).1.2
    rw [hkind] at hsolid
    cases hsolid

/-- A comment that starts in a text starts the line that it stands in. -/
theorem isComment_of_startsComment_append {before as bs : List Char}
    (hbefore : before = [] ∨ '\n' ∈ before.getLast?) (has : '\n' ∉ as)
    (h : startsComment (marginAfter (some 0) (before ++ as)) c ds = true)
    (hds : c :: ds = bs ++ rest) (hrest : ∀ d ∈ rest.head?, isBlank d = true) :
    Line.isComment (String.ofList (as ++ bs)) = true := by
  have hmargin : marginAfter (some 0) (before ++ as) = marginAfter (some 0) as := by
    rw [marginAfter, List.foldl_append]
    rcases hbefore with rfl | hlf
    · rfl
    · exact congrArg (List.foldl marginStep · as) (marginAfter_of_getLast? hlf)
  rw [hmargin] at h
  cases hspaces : marginAfter (some 0) as with
  | none =>
    rw [hspaces] at h
    cases h
  | some n =>
    rw [hspaces] at h
    rw [eq_replicate_of_marginAfter hspaces has]
    rcases List.cons_eq_append_iff.mp hds with ⟨rfl, rfl⟩ | ⟨bs, rfl, rfl⟩
    · -- No comment starts with a blank.
      have hblank : isBlank c = true := hrest c rfl
      simp only [startsComment, Bool.and_eq_true, Bool.or_eq_true, beq_iff_eq] at h
      rcases h.1.1 with rfl | rfl <;> cases hblank
    · refine isComment_of_startsComment ?_
      simp only [startsComment, Bool.and_eq_true] at h ⊢
      refine ⟨h.1, ?_⟩
      cases bs with
      | nil => rfl
      | cons b bs => exact h.2

/-- If the last line is no comment and has none, the last token is none. -/
theorem isComment_of_mem_getLast? {before line : List Char}
    (h : Cuts .cell (some 0) p (before ++ line) ts [])
    (hbefore : before = [] ∨ '\n' ∈ before.getLast?) (hline : '\n' ∉ line) (hmark : '$' ∉ line)
    (hcode : Line.isComment (String.ofList line) = false) :
    ∀ t ∈ ts.getLast?, t.kind.isComment = false := by
  intro t ht
  rw [← Bool.not_eq_true]
  intro hkind
  obtain ⟨init, rfl⟩ := List.getLast?_eq_some_iff.mp ht
  have htext := h.eq_append
  obtain ⟨mid, -, hlast⟩ := h.exists_of_append
  obtain ⟨kind, c, ds, cs', hmid, rfl, hlex, hnil⟩ := hlast.exists_of_cons
  cases hnil
  rw [List.append_nil] at hlex hmid
  rw [textOf_append, String.toList_append, List.append_nil, textOf_cons, String.toList_append,
    String.toList_ofList] at htext
  simp only [textOf_nil, String.toList_empty, List.append_nil] at htext
  have honeLine := (isLexeme_of_lexeme? hlex).comment hkind
  rw [List.length_cons, Nat.add_sub_cancel, List.take_length] at honeLine
  obtain ⟨as, hinit, rfl⟩ : ∃ as, (textOf init).toList = before ++ as ∧ line = as ++ c :: ds := by
    rcases List.append_eq_append_iff.mp htext with ⟨as, hinit, hline⟩ | ⟨bs, hbs, hds⟩
    · exact ⟨as, hinit, hline⟩
    · cases bs using List.reverseRecOn with
      | nil => exact ⟨[], by rw [hbs, List.append_nil, List.append_nil], hds.symm⟩
      | append_singleton bs b =>
        -- The comment would reach over the line feed in front of the line.
        rcases hbefore with rfl | hlf
        · simp at hbs
        · rw [hbs, ← List.append_assoc, List.getLast?_concat] at hlf
          obtain rfl : b = '\n' := Option.some.inj hlf
          rw [hds] at honeLine
          simp at honeLine
  rcases mark_of_isComment hlex hkind with rfl | hstarts
  · exact hmark (by simp)
  · rw [hinit] at hstarts
    rw [List.mem_append, not_or] at hline
    rw [isComment_of_startsComment_append hbefore hline.1 hstarts
      (List.append_nil _).symm (by simp)] at hcode
    cases hcode

/-! ## Longer records -/

theorem Cuts.length_le {margin : Option Nat} {left : List Char}
    (h : Cuts mode margin p cs ts left) : ts.length ≤ cs.length := by
  induction ts generalizing margin p cs with
  | nil => exact Nat.zero_le _
  | cons t ts ih =>
    obtain ⟨kind, c, ds, cs', rfl, rfl, -, hts⟩ := h.exists_of_cons
    have := ih hts
    simp only [List.length_cons, List.length_append]
    omega

/-- Comments and runs of blanks are as long as they can be. -/
theorem length_of_lexeme? (h : lexeme? mode margin c cs = some (kind, n)) :
    (kind.isComment = true → n = 1 + toLineEnd cs) ∧
      (kind = .space → isAsciiBlank c = true ∧ n = 1 + run isAsciiBlank cs) := by
  unfold lexeme? at h
  split_ifs at h with hmark hdollar hcomment hblank hread
  · obtain ⟨rfl, -⟩ := Prod.mk.inj (Option.some.inj h)
    exact ⟨nofun, nofun⟩
  · obtain ⟨rfl, rfl⟩ := Prod.mk.inj (Option.some.inj h)
    exact ⟨fun _ ↦ rfl, nofun⟩
  · obtain ⟨rfl, rfl⟩ := Prod.mk.inj (Option.some.inj h)
    exact ⟨fun _ ↦ rfl, nofun⟩
  · obtain ⟨rfl, rfl⟩ := Prod.mk.inj (Option.some.inj h)
    exact ⟨nofun, fun _ ↦ ⟨hblank, rfl⟩⟩
  · have hsolid := (isSolid_fileLexeme c cs).1
    rw [Option.some.inj h] at hsolid
    exact ⟨fun hkind ↦ absurd hkind (by simp [hsolid.2]), fun hkind ↦ absurd hkind hsolid.1⟩
  · obtain ⟨hspace, hcomment⟩ := (isSolid_wordLexeme? h).1
    exact ⟨fun hkind ↦ absurd hkind (by simp [hcomment]), fun hkind ↦ absurd hkind hspace⟩

theorem stops_of_run {q : Char → Bool} (h : run q (cs ++ rest) = cs.length) :
    ∀ d ∈ rest.head?, q d = false := by
  intro d hd
  obtain ⟨rest, rfl⟩ := List.head?_eq_some_iff.mp hd
  rw [← Bool.not_eq_true]
  intro hq
  rw [run, List.takeWhile_append] at h
  split_ifs at h with hall
  · rw [List.takeWhile_cons_of_pos hq, List.length_append, List.length_cons] at h
    omega
  · exact hall h

/-- What stands behind a token is no part of it. -/
theorem bounds_of_cuts (h : Cuts mode margin p cs (ts ++ us) []) :
    ∀ t ∈ ts.getLast?, Bounds t.kind (textOf us).toList := by
  intro t ht
  obtain ⟨init, rfl⟩ := List.getLast?_eq_some_iff.mp ht
  rw [List.append_assoc, List.singleton_append] at h
  obtain ⟨mid, -, hlast⟩ := h.exists_of_append
  obtain ⟨kind, c, ds, cs', -, rfl, hlex, hus⟩ := hlast.exists_of_cons
  obtain rfl : cs' = (textOf us).toList := by simpa using hus.eq_append
  obtain ⟨hcomment, hspace⟩ := length_of_lexeme? hlex
  rw [List.length_cons, Nat.add_comm] at hcomment hspace
  refine ⟨fun hkind d hd ↦ ?_, fun hkind ↦ stops_of_run (Nat.add_left_cancel (hspace hkind).2).symm⟩
  simpa using stops_of_run (Nat.add_left_cancel (hcomment hkind)).symm d hd

/-- A token of blanks has nothing else in it. -/
theorem isAsciiBlank_of_mem_space (h : Cuts mode margin p cs (t :: ts) [])
    (hkind : t.kind = .space) : ∀ d ∈ t.text.toList, isAsciiBlank d = true := by
  obtain ⟨kind, c, ds, cs', -, rfl, hlex, -⟩ := h.exists_of_cons
  obtain ⟨hc, hlength⟩ := (length_of_lexeme? hlex).2 hkind
  rw [List.length_cons, Nat.add_comm] at hlength
  have hrun : ((ds ++ cs').takeWhile isAsciiBlank).length = ds.length :=
    (Nat.add_left_cancel hlength).symm
  have htake : (ds ++ cs').takeWhile isAsciiBlank = ds := by
    rw [(List.prefix_iff_eq_take.mp (List.takeWhile_prefix _)), hrun, List.take_left]
  rw [String.toList_ofList]
  refine List.forall_mem_cons.mpr ⟨hc, fun d hd ↦ ?_⟩
  rw [← htake] at hd
  exact List.mem_takeWhile_imp hd

/-- A blank starts a run of blanks. -/
theorem lexeme?_of_isAsciiBlank (hc : isAsciiBlank c = true) (cs : List Char) :
    lexeme? mode margin c cs = some (.space, 1 + run isAsciiBlank cs) := by
  have hmem : c ∈ [' ', '\t', '\n', '\r', '\x0c'] := by
    simp only [isAsciiBlank, Bool.or_eq_true, beq_iff_eq] at hc
    simp only [List.mem_cons, List.not_mem_nil, or_false]
    tauto
  have hcomment : startsComment margin c cs = false :=
    startsComment_eq_false (by fin_cases hmem <;> rfl) _
  have hmarks : (c == '#') = false ∧ (c == '$') = false := by fin_cases hmem <;> exact ⟨rfl, rfl⟩
  unfold lexeme?
  simp [hcomment, hmarks, hc]

/-- Blanks in front of a text that starts with none are one lexeme. -/
theorem lexeme?_blanks {gap : List Char} (hgap : ∀ b ∈ c :: gap, isAsciiBlank b = true)
    (h : StartsSolid rest) :
    lexeme? mode margin c (gap ++ rest) = some (.space, (c :: gap).length) := by
  obtain ⟨hc, hgap⟩ := List.forall_mem_cons.mp hgap
  have hrun : run isAsciiBlank (gap ++ rest) = gap.length := run_append hgap h
  rw [lexeme?_of_isAsciiBlank hc, hrun, List.length_cons, Nat.add_comm]

/-- The number one behind a blank. -/
theorem exists_cuts_one (margin : Option Nat) (p : Position) : ∃ space one,
    Cuts .data margin p [' ', '1'] [space, one]
      [] ∧ space.kind = .space ∧ one.kind.isNumber = true ∧ one.text = "1" ∧
      IsShort space ∧ IsShort one := by
  have hone (margin : Option Nat) :
      lexeme? .data margin '1' ([] ++ []) = some (classifyNumber "1", 1) := by
    cases margin <;> rfl
  have hcuts : Cuts .data margin p [' ', '1'] _ [] :=
    @Cuts.cons _ _ _ _ _ _ .space ' ' []
      (lexeme?_blanks (List.forall_mem_singleton.mpr rfl) (by rintro _ ⟨⟩; rfl))
        (@Cuts.cons _ _ _ _ _ _ (classifyNumber "1") '1' [] (hone _) .done)
  refine ⟨_, _, hcuts, rfl, ?_, rfl, .inl rfl, .inr (by rw [String.toList_ofList]; decide)⟩
  unfold classifyNumber
  split
  · split_ifs <;> rfl
  · rfl

/-- The blanks at the end of a record may be more, with another text behind them. -/
theorem CutsAs.blanks {gap extra : List Char} {Q : List Token → Prop}
    (hgap : ∀ b ∈ gap, isAsciiBlank b = true) (hextra : CutsAs extra Q)
    (hsolid : StartsSolid extra) :
    CutsAs (gap ++ extra) fun vs ↦ ∃ ks us, vs = ks ++ us ∧ (∀ t ∈ ks, t.isLayout = true) ∧
      (ks = [] → gap = []) ∧ Q us := by
  intro margin p
  cases gap with
  | nil =>
    obtain ⟨us, hus, hshort, hQ⟩ := hextra margin p
    exact ⟨us, hus, hshort, [], us, rfl, by simp, fun _ ↦ rfl, hQ⟩
  | cons b gap =>
    obtain ⟨us, hus, hshort, hQ⟩ := hextra (marginAfter margin (b :: gap)) (p.advance (b :: gap))
    refine ⟨_, .cons (lexeme?_blanks hgap hsolid) hus, List.forall_mem_cons.mpr ⟨.inl rfl, hshort⟩,
      [_], us, rfl,
      by simp; rfl, by simp, hQ⟩

/-- The tokens of a record without the blanks at its end, which may be followed by anything. -/
theorem exists_trimmed (h : Cuts .cell margin p cs ts [])
    (hlast : ∀ t ∈ ts.getLast?, t.kind.isComment = false) :
    ∃ ms ls, ts = ms ++ ls ∧ (∀ t ∈ ls, t.isLayout = true) ∧
      (∀ d ∈ (textOf ls).toList, isAsciiBlank d = true) ∧ (ls ≠ [] → (textOf ls).toList ≠ []) ∧
      ∀ rest, ∀ t ∈ ms.getLast?, Bounds t.kind ((textOf ls).toList ++ rest) := by
  cases ts using List.reverseRecOn with
  | nil => exact ⟨[], [], rfl, by simp, by simp, by simp, by simp⟩
  | append_singleton ms t =>
    have ht : t.kind.isComment = false := hlast t (by simp)
    by_cases hspace : t.kind = .space
    · obtain ⟨mid, -, hcut⟩ := h.exists_of_append
      have htext : (textOf [t]).toList = t.text.toList := by simp
      have hne : t.text.toList ≠ [] := by
        have := hcut.partitions.nonempty t List.mem_cons_self
        simpa using this
      refine ⟨ms, [t], rfl, ?_, ?_, fun _ ↦ htext ▸ hne, fun rest u hu ↦ ?_⟩
      · rintro u (_ | ⟨_, ⟨⟩⟩)
        rw [Token.isLayout, hspace]
        rfl
      · rw [htext]
        exact isAsciiBlank_of_mem_space hcut hspace
      · -- What may stand behind a token shows in the next character.
        have hbounds := bounds_of_cuts h u hu
        rw [htext] at hbounds ⊢
        obtain ⟨d, ds, hds⟩ := List.exists_cons_of_ne_nil hne
        rw [hds] at hbounds ⊢
        exact ⟨hbounds.comment, hbounds.blank⟩
    · refine ⟨ms ++ [t], [], by simp, by simp, by simp, by simp, fun rest u hu ↦ ?_⟩
      obtain rfl : t = u := by simpa using hu
      exact ⟨fun hkind ↦ absurd hkind (by simp [ht]), fun hkind ↦ absurd hkind hspace⟩

/-- The last token of a text that ends with a break is layout or closes a group. -/
theorem Cuts.kind_of_getLast? (h : Cuts .cell margin p cs ts rest) (ht : t ∈ ts.getLast?)
    (hbreak : ∀ b ∈ (textOf ts).toList.getLast?, b ∈ breaks) :
    t.isLayout = true ∨ t.kind = .rightParen := by
  obtain ⟨init, rfl⟩ := List.getLast?_eq_some_iff.mp ht
  obtain ⟨mid, -, hlast⟩ := h.exists_of_append
  obtain ⟨kind, c, ds, cs', -, rfl, hlex, -⟩ := hlast.exists_of_cons
  refine kind_of_break hlex fun d hd ↦ hbreak d ?_
  rw [textOf_append, textOf_cons, textOf_nil, String.append_empty, String.toList_append,
    String.toList_ofList, List.getLast?_append, hd]
  rfl

/-- A record goes on behind some room with a text that is set apart from it: its tokens stay as they
are, up to the blanks at its end. -/
theorem exists_tokenize_append {source : String} {room extra : List Char} {Q : List Token → Prop}
    (h : tokenize .cell source = .ok ts) (hlast : ∀ t ∈ ts.getLast?, t.kind.isComment = false)
    (hroom : ∀ b ∈ room, isAsciiBlank b = true)
    (hbreak : ∀ b ∈ (source.toList ++ room).getLast?, b ∈ breaks) (hextra : CutsAs extra Q)
    (hsolid : StartsSolid extra)
    (hlength : (source.toList ++ (room ++ extra)).length ≤ Limits.tokens) :
    ∃ ms ls ks us, ts = ms ++ ls ∧
      tokenize .cell (String.ofList (source.toList ++ (room ++ extra))) = .ok (ms ++ (ks ++ us)) ∧
      (∀ t ∈ ls, t.isLayout = true) ∧ (∀ t ∈ ks, t.isLayout = true) ∧
      (ks = [] → ls = [] ∧ ∀ t ∈ ms.getLast?, t.isLayout = true ∨ t.kind = .rightParen) ∧ Q us := by
  obtain ⟨hcuts, hshort, -⟩ := tokenize_eq_ok_iff.mp h
  have htext := hcuts.eq_append
  obtain ⟨ms, ls, rfl, hls, hlsBlank, hlsText, hbounds⟩ := exists_trimmed hcuts hlast
  rw [List.append_nil, textOf_append, String.toList_append] at htext
  have hgap : ∀ b ∈ (textOf ls).toList ++ room, isAsciiBlank b = true :=
    List.forall_mem_append.mpr ⟨hlsBlank, hroom⟩
  obtain ⟨mid, hms, hrest⟩ := hcuts.exists_of_append
  obtain rfl : mid = (textOf ls).toList := by simpa using hrest.eq_append
  have hnil : (textOf ls).toList ++ room = [] → ls =
      [] ∧ ∀ b ∈ (textOf ms).toList.getLast?, b ∈ breaks := fun hnil ↦ by
    obtain ⟨hls, rfl⟩ := List.append_eq_nil_iff.mp hnil
    rw [htext, hls, List.append_nil, List.append_nil] at hbreak
    exact ⟨by_contra fun hne ↦ hlsText hne hls, hbreak⟩
  have hapart : Apart (textOf ms).toList ((textOf ls).toList ++ (room ++ extra)) := by
    rw [← List.append_assoc]
    cases hcs : (textOf ls).toList ++ room with
    | nil => exact .inr (hnil hcs).2
    | cons b gap =>
      rw [hcs] at hgap
      exact .inl (hgap b List.mem_cons_self)
  have hends : Apart (textOf ms).toList (textOf ls).toList := by
    cases hcs : (textOf ls).toList with
    | nil => exact .inl rfl
    | cons b gap =>
      rw [hcs] at hlsBlank
      exact .inl (hlsBlank b List.mem_cons_self)
  have hstart := hms.replace (by decide) hends hapart (hbounds (room ++ extra))
  obtain ⟨vs, hvs, hvsShort, ks, us, rfl, hks, hksNil, hQ⟩ := CutsAs.blanks hgap hextra hsolid
    (marginAfter (some 0) (textOf ms).toList) (Position.start.advance (textOf ms).toList)
  rw [List.append_assoc] at hvs
  have hall := hstart.append hvs
  rw [← List.append_assoc, ← htext] at hall
  refine ⟨ms, ls, ks, us, rfl, tokenize_eq_ok_iff.mpr ⟨?_, ?_, hall.length_le.trans hlength⟩, hls,
    hks, ?_, hQ⟩
  · rwa [String.toList_ofList]
  · exact List.forall_mem_append.mpr ⟨(List.forall_mem_append.mp hshort).1, hvsShort⟩
  · intro hksEq
    obtain ⟨hlsNil, hbreaks⟩ := hnil (hksNil hksEq)
    exact ⟨hlsNil, fun t ht ↦ hms.kind_of_getLast? ht hbreaks⟩

end Lexer

end TransportDeck
