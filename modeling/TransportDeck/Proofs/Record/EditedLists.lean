import TransportDeck.Proofs.Grammar.ListRecords
import TransportDeck.Proofs.Grammar.TidyLists
import TransportDeck.Proofs.Input.Fronts
import TransportDeck.Proofs.Record.Marks
import TransportDeck.Proofs.Token.Nuclides

/-!
# Lists that are set and read again

The values of a data record are set, the record is written, and its text is read again.  The numbers
are read that were set, if no count is padded: a blank in front of its letter makes it a value.
-/

namespace TransportDeck

open Text Lexer Production

/-! ## Tokens of the text -/

variable {margin : Option Nat} {p : Position} {cs text rest : List Char} {fs ls vs ws : List Token}
  {is : List WrittenItem} {atEnd : Bool}

/-- How tokens behind a front start with layout and show items. -/
structure ShowsBehind (is : List WrittenItem) (ks us : List Token) : Prop where
  layout : ∀ k ∈ ks, k.isLayout = true
  solid : ∀ u ∈ us.head?, u.isLayout = false
  short : ∀ t ∈ ks ++ us, IsShort t
  listed : ∀ u ∈ us, u.IsListed
  shows : Shows [] is us

/-- The tokens of a text of items; layout is first if a blank is. -/
theorem Strung.exists_showsBehind (h : Strung atEnd is text) (hsolid : StartsSolid rest)
    (hrest : atEnd = true → rest = []) (margin : Option Nat) (p : Position) : ∃ ks us,
      Cuts .data margin p (text ++ rest) (ks ++ us) rest ∧ ShowsBehind is ks us ∧
        ((∃ b ∈ text.head?, isAsciiBlank b = true) → ks ≠ []) := by
  obtain ⟨ts, hts, hshort, hlisted, hshows⟩ := h.exists_cuts hsolid hrest margin p
  have hsplit : ts.takeWhile Token.isLayout ++ WrittenItem.behindLayout ts = ts :=
    List.takeWhile_append_dropWhile
  refine ⟨ts.takeWhile Token.isLayout, WrittenItem.behindLayout ts, hsplit.symm ▸ hts, {
    layout := fun k hk ↦ List.mem_takeWhile_imp hk
    solid := fun u hu ↦ by
      have hhead := List.head?_dropWhile_not Token.isLayout ts
      rwa [show (ts.dropWhile Token.isLayout).head? = some u from hu] at hhead
    short := fun t ht ↦ hshort t (hsplit ▸ ht)
    listed := fun u hu ↦ hlisted u (hsplit ▸ List.mem_append_right _ hu)
    shows := hshows }, ?_⟩
  rintro ⟨b, hb, hblank⟩ hnil
  obtain ⟨text, rfl⟩ := List.head?_eq_some_iff.mp hb
  cases ts with
  | nil =>
    have hlength := congrArg List.length hts.eq_append
    rw [textOf_nil, String.toList_empty, List.nil_append, List.length_append,
      List.length_cons] at hlength
    omega
  | cons t ts =>
    obtain ⟨kind, c, ds, cs', hc, rfl, hlex, -⟩ := hts.exists_of_cons
    obtain rfl : b = c := (List.cons.inj hc).1
    rw [List.cons_append] at hc
    rw [lexeme?_of_isAsciiBlank hblank] at hlex
    obtain rfl := (Prod.mk.inj (Option.some.inj hlex)).1
    cases hnil

theorem TokenKind.space_or_ampersand {kind : TokenKind} (h : kind.isLayout = true)
    (hcomment : kind.isComment = false) : kind = .space ∨ kind = .ampersand := by
  revert h hcomment
  cases kind <;> simp [isLayout, isComment]

/-- More layout in front. -/
theorem ShowsBehind.append {ks us : List Token} (h : ShowsBehind is ks us)
    (hls : ∀ t ∈ ls, t.isLayout = true) : ShowsBehind is (ls ++ ks) us where
  layout := List.forall_mem_append.mpr ⟨hls, h.layout⟩
  solid := h.solid
  short := by
    rw [List.append_assoc]
    exact List.forall_mem_append.mpr ⟨fun t ht ↦ .inl (hls t ht), h.short⟩
  listed := h.listed
  shows := h.shows

/-- Other items may be written behind the layout in front of a list: the tokens in front of that
stay. -/
theorem Strung.exists_cuts_behind {m : Token} (hstrung : Strung atEnd is text)
    (h : Cuts .data margin p cs (fs ++ (ls ++ [m] ++ vs)) []) (hls : ∀ t ∈ ls, t.isLayout = true)
    (hm : m.isLayout = true) (hcomment : m.kind.isComment = false) (hsolid : StartsSolid rest)
    (hrest : atEnd = true → rest = []) : ∃ ks us,
      Cuts .data margin p ((textOf (fs ++ (ls ++ [m]))).toList ++ (text ++ rest))
        (fs ++ (ks ++ us)) rest ∧ ShowsBehind is ks us ∧ ks ≠ [] := by
  have hsplit : fs ++ (ls ++ [m] ++ vs) = fs ++ ls ++ (m :: vs) := by simp
  rw [hsplit] at h
  obtain ⟨mid, hfront, hbehind⟩ := h.exists_of_append
  rcases TokenKind.space_or_ampersand hm hcomment with hspace | hmark
  · -- The blanks belong to the new text, for its own blanks may stand behind them.
    have hblank : ∀ b ∈ m.text.toList, isAsciiBlank b = true :=
      isAsciiBlank_of_mem_space hbehind hspace
    obtain ⟨kind, c, ds, cs', rfl, rfl, -, -⟩ := hbehind.exists_of_cons
    rw [String.toList_ofList] at hblank
    have hc := hblank c List.mem_cons_self
    have hbounds : ∀ t ∈ (fs ++ ls).getLast?, Bounds t.kind (c :: ds ++ text ++ rest) :=
        fun t ht ↦ by
      have hold := bounds_of_cuts h t ht
      rw [textOf_cons, String.toList_append, String.toList_ofList] at hold
      exact ⟨hold.comment, hold.blank⟩
    have hapart (rest : List Char) : Apart (textOf (fs ++ ls)).toList (c :: ds ++ rest) := .inl hc
    have hstart :=
      hfront.replace (by decide) (hapart _) (by rw [List.append_assoc]; exact hapart _) hbounds
    obtain ⟨ks, us, hus, hshows, hne⟩ :=
      (hstrung.gap_append (.of_blanks hblank)).exists_showsBehind hsolid hrest
        (marginAfter margin (textOf (fs ++ ls)).toList) (p.advance (textOf (fs ++ ls)).toList)
    refine ⟨ls ++ ks, us, ?_, hshows.append hls, by simp [hne ⟨c, rfl, hc⟩]⟩
    have hall := hstart.append hus
    simp only [textOf_append, textOf_cons, textOf_nil, String.append_empty, String.toList_append,
      String.toList_ofList, List.append_assoc] at hall ⊢
    exact hall
  · have hsplit : fs ++ ls ++ m :: vs = fs ++ (ls ++ [m]) ++ vs := by simp
    rw [hsplit] at h
    obtain ⟨mid, hfront, -⟩ := h.exists_of_append
    have hlast : m ∈ (fs ++ (ls ++ [m])).getLast? := by simp
    have hbreak := hfront.break_of_getLast? (by decide) hlast hm hcomment
    have hbounds : ∀ t ∈ (fs ++ (ls ++ [m])).getLast?, Bounds t.kind (text ++ rest) := fun t ht ↦ by
      obtain rfl : m = t := Option.some.inj (hlast.symm.trans ht)
      exact ⟨fun hkind ↦ absurd hkind (by simp [hcomment]), fun hkind ↦
        absurd (hkind.symm.trans hmark) (by decide)⟩
    have hstart := hfront.replace (by decide) (.inr hbreak) (.inr hbreak) hbounds
    obtain ⟨ks, us, hus, hshows, -⟩ := hstrung.exists_showsBehind hsolid hrest
      (marginAfter margin (textOf (fs ++ (ls ++ [m]))).toList)
        (p.advance (textOf (fs ++ (ls ++ [m]))).toList)
    have hall := hstart.append hus
    refine ⟨ls ++ [m] ++ ks, us, by simpa using hall, hshows.append ?_, by simp⟩
    exact List.forall_mem_append.mpr ⟨hls, List.forall_mem_singleton.mpr hm⟩

/-! ## Names behind the list -/

namespace Lexer

variable {ws : List Token}

/-- A word of two characters or more is the same behind any margin. -/
theorem sameStart_of_two_le_word (h : 2 ≤ word cs) (margin margin' : Option Nat) :
    Cuts.SameStart margin margin' cs := by
  obtain ⟨c, d, ds, rfl, hc, hd⟩ := exists_cons_of_two_le_word h
  have hends : endsLine (d :: ds) = false := by
    rw [endsLine, ← Bool.not_eq_true]
    intro hblank
    have hword := isBlank_of_isWordChar hd
    rw [isBlank_of_isAsciiBlank hblank] at hword
    cases hword
  have hnone (m : Option Nat) : startsComment m c (d :: ds) = false := by
    unfold startsComment
    split
    · rw [hends, Bool.and_false]
    · rfl
  refine ⟨?_, (hnone margin).trans (hnone margin').symm⟩
  rintro rfl
  cases hc

/-- A word of two characters or more is not passed on the way to an equals sign. -/
theorem Cuts.barsEquals (h : Cuts .data margin p cs ws []) (hname : 2 ≤ word cs)
    (hstarts : WrittenItem.parameterInFront .data ws = true) : BarsEquals ws := by
  obtain ⟨c, d, ds, rfl, hc, -⟩ := exists_cons_of_two_le_word hname
  rintro w hw
  obtain ⟨ws, rfl⟩ := List.head?_eq_some_iff.mp hw
  have hword := (starts_of_parameterInFront hstarts).resolve_left (by simp [isMark_of_cuts hc h])
  obtain ⟨kind, c', es, cs', heq, rfl, hlex, -⟩ := h.exists_of_cons
  obtain ⟨rfl, htail⟩ : c = c' ∧ d :: ds = es ++ cs' := List.cons.inj heq
  rw [← htail] at hlex
  have hlength := length_of_isWord (by decide) hlex hword
  have htwo : es ≠ [] := by
    rintro rfl
    rw [← hlength] at hname
    exact Nat.not_succ_le_self 1 hname
  change kind.isWord = true at hword
  cases kind <;>
    first | (cases hword; done) | simp [isBeforeEquals, isParticleToken, Token.isLayout,
      TokenKind.isLayout, TokenKind.isNumber, htwo]

end Lexer

namespace DataRecord

/-- The values are the numbers that were set, up to open places at the end. -/
def HoldsValues (r : DataRecord) (ns : List (Option Int)) : Prop :=
  ∃ k, List.Forall₂ ReadsAs (r.values ++ List.replicate k none) ns

/-- The list of a record that is not a material. -/
def list? (d : DataRecord) : Option FieldList :=
  match d.body with
  | .values l => some l
  | .nuclides _ => none

theorem body_of_list? {d : DataRecord} {l : FieldList} (h : d.list? = some l) :
    d.body = .values l := by
  unfold list? at h
  split at h
  · next l' hbody => rwa [Option.some.inj h] at hbody
  · cases h

/-- What can be computed from the data record that a card is holds of it. -/
theorem exists_data (card : Card) (p : DataRecord → Bool)
    (h : (card.parse.toOption.any fun r ↦ match r with
      | .data d => p d
      | _ => false) = true) : ∃ d, card.parse = .ok (.data d) ∧ p d = true := by
  obtain ⟨r, hr, hp⟩ := Except.exists_of_any h
  cases r with
  | data d => exact ⟨d, hr, hp⟩
  | cell | surface | read | verbatim => cases hp

/-- Numbers can be set in the list of a record, and read again.  The list consists of whole numbers,
jumps and repeats, and in front of it there is layout in which no comment is open.  The count of no
run of the new list is padded. -/
structure TakesNumbers (d : DataRecord) (l : FieldList) (ns : List (Option Int)) : Prop where
  body : d.body = .values l
  whole : ∀ i ∈ l.items, i.IsWhole
  other : Text.sameWord d.classifier.word "m" = false
  room : ∃ layout, d.room = some layout ∧ layout.hasOpenComment = false
  small : ∀ v ∈ ns, ∀ n ∈ v, n.natAbs < 10 ^ 5
  length_le : ns.length ≤ Limits.shorthandCount
  tight : ∀ i ∈ (l.setValues .standard (ns.map (·.map .int))).items, i.IsTight

/-- The parameters behind a list are set apart from it.  They are written as they were read, there
is layout behind the list, and the first of them has a name of two characters or more: a single
letter may be a particle, or start a comment. -/
structure SetsApart (card : Card) (d : DataRecord) (l : FieldList) : Prop where
  written : ({ d with parameters := .empty } : DataRecord).source ++
    (d.parameters.render .standard).text = card.text
  room : layoutText l.tail ≠ ""
  named : 2 ≤ word (d.parameters.render .standard).text.toList

/-- Only the list is written anew. -/
theorem text_of_setValues? {d d' : DataRecord} {l : FieldList} {t t' : Tolerance}
    {vs : List (Option Value)} (hbody : d.body = .values l) (h : d.setValues? t vs = some d') :
    (d'.render t').text = layoutText d.leading ++ (d.classifier.render t').text ++
      (renderField t' d.keyword).text ++ ((l.setValues t vs).render t').text ++
      (d.parameters.render t').text := by
  unfold setValues? at h
  rw [hbody] at h
  obtain rfl := Option.some.inj h
  simp only [render, Rendered.text_append, Rendered.text_ofText, DataBody.render]

/-- How the card of a record with a list has been read: its tokens, and the last one in front of the
list.  What stands behind the list is written again. -/
structure ListCard (card : Card) (d : DataRecord) (l : FieldList) (front ls : List Token)
    (m : Token) (vs ws : List Token) : Prop where
  tokens : tokenize .data card.text = .ok (front ++ (ls ++ [m] ++ (vs ++ ws)))
  reading : ListReading (front ++ (ls ++ [m] ++ (vs ++ ws))) d l front (ls ++ [m]) vs ws
  comment : m.kind.isComment = false
  written : (d.parameters.render .standard).text = textOf ws
  room : ws ≠ [] → layoutText l.tail ≠ ""
  named : ws ≠ [] → 2 ≤ word (textOf ws).toList

theorem exists_listCard {card : Card} {d : DataRecord} {l : FieldList} {ns : List (Option Int)}
    (h : card.parse = .ok (.data d)) (htakes : d.TakesNumbers l ns)
    (hbehind : d.parameters.params = [] ∨ d.SetsApart card l) :
    ∃ front ls m vs ws, ListCard card d l front ls m vs ws := by
  obtain ⟨ts, hts, hrecord⟩ := Card.exists_tokens_of_data h
  obtain ⟨-, c, hrun, herrors⟩ := Cursor.parse_eq_ok_iff.mp hrecord
  obtain ⟨d₀, c', hdata, ⟨⟩⟩ := run_bind_ok hrun
  have hlexed : (Cursor.of (.of ts)).IsLexed := spells_of_tokensFrom hts
  obtain ⟨layout, hlayout, hopen⟩ := htakes.room
  obtain ⟨front, ls, vs, ws, hreading⟩ :=
    exists_listReading hlexed hdata herrors htakes.body htakes.other (by rw [hlayout]; rfl)
  have hroom := hreading.room
  rw [hlayout] at hroom
  obtain ⟨ls, m, rfl⟩ : ∃ ls' m, ls = ls' ++ [m] := by
    refine (List.eq_nil_or_concat' ls).resolve_left ?_
    rintro rfl
    cases hroom
  have hclosed : ∀ k ∈ Layout.ofTokens? (ls ++ [m]), k.hasOpenComment = false := by
    rw [← hroom]
    rintro _ ⟨⟩
    exact hopen
  have hsplit : ts = front ++ (ls ++ [m] ++ (vs ++ ws)) := hreading.split
  have hcuts := (tokenize_eq_ok_iff.mp hts).1
  have htexts : ∀ t ∈ ts, t.text ≠ "" := fun t ht ↦ by simpa using hcuts.partitions.nonempty t ht
  have hwritten : (d.parameters.render .standard).text = textOf ws ∧
      (ws ≠ [] → layoutText l.tail ≠ "" ∧ 2 ≤ word (textOf ws).toList) := by
    rcases hbehind with hnone | hbehind
    · obtain rfl : ws = [] :=
        eq_nil_of_readAs hreading.readAs hnone fun w hw ↦ htexts w (by rw [hsplit]; simp [hw])
      exact ⟨by rw [Parameters.render, hnone]; rfl, fun hne ↦ absurd rfl hne⟩
    · have hsource : card.text = textOf (front ++ (ls ++ [m] ++ vs)) ++ textOf ws := by
        rw [← textOf_append, ← String.toList_inj]
        simpa [hsplit] using hcuts.eq_append
      have hwritten : (d.parameters.render .standard).text = textOf ws := by
        have hboth := hbehind.written.trans hsource
        rwa [hreading.unended, String.append_right_inj] at hboth
      exact ⟨hwritten, fun _ ↦ ⟨hbehind.room, hwritten ▸ hbehind.named⟩⟩
  rw [hsplit] at hts
  exact ⟨front, ls, m, vs, ws, hts, hsplit ▸ hreading,
    Layout.isComment_of_closed hclosed m (by simp), hwritten.1, fun hne ↦
      (hwritten.2 hne).1, fun hne ↦ (hwritten.2 hne).2⟩

namespace ListCard

variable {card : Card} {d : DataRecord} {l : FieldList} {front : List Token} {m : Token}

theorem lexed (h : ListCard card d l front ls m vs ws) :
    ∀ t ∈ front ++ (ls ++ [m] ++ (vs ++ ws)), Spells t.kind t.text := spells_of_tokensFrom h.tokens

theorem layout (h : ListCard card d l front ls m vs ws) :
    (∀ t ∈ ls, t.isLayout = true) ∧ m.isLayout = true := by
  obtain ⟨hls, hm⟩ := List.forall_mem_append.mp h.reading.layout
  exact ⟨hls, hm m (List.mem_singleton_self m)⟩

/-- The list as it was read. -/
theorem isTidy (h : ListCard card d l front ls m vs ws) (hwhole : ∀ i ∈ l.items, i.IsWhole) :
    l.IsTidy ws.isEmpty := by
  obtain ⟨hcuts, hshort, -⟩ := tokenize_eq_ok_iff.mp h.tokens
  obtain ⟨c, c', hc, hvalues, hend⟩ := h.reading.values
  have hlex : c.IsLexed := fun t ht ↦ h.lexed t (by rw [← hc]; simp [show t ∈ c.rest from ht])
  obtain ⟨-, us, hus, htidy⟩ := Reads.values_tidy hlex _ _ hvalues
  obtain rfl : vs = us := by
    rw [hc, hend] at hus
    exact List.append_cancel_right hus
  rw [← List.append_assoc] at hcuts
  obtain ⟨mid, -, hbehind⟩ := hcuts.exists_of_append
  exact htidy hwhole (fun t ht ↦ hshort t (by simp [ht])) _ _ _ _ h.reading.ending.solid hbehind

/-- Behind what stands in front of the list a text of items is cut into tokens that show them, and
what stands behind the list is cut as before. -/
theorem exists_tokens {card' : Card} {text : String} (h : ListCard card d l front ls m vs ws)
    (htext : card'.text = textOf (front ++ (ls ++ [m])) ++ text ++ textOf ws)
    (hstrung : Strung ws.isEmpty is text.toList) (hlength : card'.text.length ≤ Limits.tokens) :
    ∃ ks us ws',
      tokenize .data card'.text = .ok (front ++ (ks ++ (us ++ ws'))) ∧ ShowsBehind is ks us ∧ ks ≠
      [] ∧
        List.Forall₂ Token.Alike ws ws' ∧ BarsEquals ws' := by
  obtain ⟨hcuts, hshort, -⟩ := tokenize_eq_ok_iff.mp h.tokens
  have hsplit : front ++ (ls ++ [m] ++ (vs ++ ws)) = front ++ (ls ++ [m]) ++ vs ++ ws := by simp
  obtain ⟨mid, -, hws⟩ := (hsplit ▸ hcuts).exists_of_append
  obtain rfl : mid = (textOf ws).toList := by simpa using hws.eq_append
  have hsolid : StartsSolid (textOf ws).toList := by
    by_cases hnil : ws = []
    · rw [hnil]
      exact nofun
    · obtain ⟨c, d, ds, hcons, hc, -⟩ := exists_cons_of_two_le_word (h.named hnil)
      rw [hcons]
      rintro _ ⟨⟩
      exact eq_false_of_isAlpha hc isAsciiBlank (by decide)
  obtain ⟨ks, us, hfront, hshows, hks⟩ :=
    hstrung.exists_cuts_behind hcuts h.layout.1 h.layout.2 h.comment hsolid fun hempty ↦ by
      rw [List.isEmpty_iff.mp hempty]; rfl
  have hsame (margin margin' : Option Nat) : Cuts.SameStart margin margin' (textOf ws).toList := by
    by_cases hnil : ws = []
    · rw [hnil]
      trivial
    · exact sameStart_of_two_le_word (h.named hnil) _ _
  obtain ⟨ws', hws', halike⟩ :=
    hws.moved (.inr (hsame _ (marginAfter (some 0) (textOf (front ++ (ks ++ us))).toList)))
      (Position.start.advance (textOf (front ++ (ks ++ us))).toList)
  have hbars : BarsEquals ws' := by
    rcases h.reading.ending.starts with rfl | hstarts
    · rw [List.forall₂_nil_left_iff.mp halike]
      exact nofun
    · refine hws'.barsEquals (h.named ?_) (parameterInFront_alike halike ▸ hstarts)
      rintro rfl
      cases hstarts
  have hall : Cuts .data (some 0) .start card'.text.toList (front ++ (ks ++ (us ++ ws'))) [] := by
    rw [htext]
    simpa using hfront.append hws'
  refine ⟨ks, us, ws', tokenize_eq_ok_iff.mpr ⟨hall, ?_, ?_⟩, hshows, hks, halike, hbars⟩
  · have hnew := isShort_of_alike halike fun w hw ↦ hshort w (by simp [hw])
    refine List.forall_mem_append.mpr ⟨fun t ht ↦ hshort t (by simp [ht]), ?_⟩
    rw [← List.append_assoc]
    exact List.forall_mem_append.mpr ⟨hshows.short, hnew⟩
  · refine hall.length_le.trans ?_
    rwa [String.length_toList]

/-- Another list is read behind what stands in front of the list. -/
theorem exists_parse {P : FieldList → Prop} {ks us ws' : List Token}
    (h : ListCard card d l front ls m vs ws) (hshows : ShowsBehind is ks us) (hks : ks ≠ [])
    (halike : List.Forall₂ Token.Alike ws ws') (hbars : BarsEquals ws')
    (hvalues : GivesSome (Production.values .data .real) (us ++ ws') P ws') :
    ∃ r, (Cursor.of (.of (front ++ (ks ++ (us ++ ws'))))).parse .data = .ok (.data r) ∧
      ∃ l', r.body = .values l' ∧ P l' := by
  have hhead : ∀ u ∈ (us ++ ws').head?, u.isLayout = false := fun u hu ↦ by
    cases us with
    | nil => exact (h.reading.ending.alike halike).solid u hu
    | cons v us => exact hshows.solid u hu
  have hagain :=
    h.reading.again ks us ws' P hks hshows.layout hhead hshows.listed halike hbars hvalues
  obtain ⟨r, c, hrun, hr, -, herrors⟩ :=
    hagain (Cursor.of (.of (front ++ (ks ++ (us ++ ws'))))) rfl rfl
  have hsolid : (Cursor.of (.of (front ++ (ks ++ (us ++ ws'))))).stream.onlyLayoutLeft = false := by
    obtain ⟨t, ht, hlayout⟩ := h.reading.solid
    exact TokenStream.onlyLayoutLeft_of ⟨t, List.mem_append_left _ ht, hlayout⟩
  have hrecord :
      (record .data).run (Cursor.of (.of (front ++ (ks ++ (us ++ ws'))))) = (.ok (.data r), c) :=
    run_bind_of_ok hrun
  exact ⟨r, Cursor.parse_eq_ok_iff.mpr ⟨hsolid, c, hrecord, herrors⟩, hr⟩

/-- The text behind the front of a list does not make a request of the record. -/
theorem isRead_eq {card' : Card} {text : String} (h : ListCard card d l front ls m vs ws)
    (htext : card'.text = textOf (front ++ (ls ++ [m])) ++ text)
    (hlines : ∀ l ∈ card.lines ++ card'.lines, Line.IsLegible l) : card'.isRead = card.isRead := by
  obtain ⟨hlines, hlines'⟩ := List.forall_mem_append.mp hlines
  have hsplit : front ++ (ls ++ [m] ++ (vs ++ ws)) = front ++ (ls ++ [m]) ++ (vs ++ ws) := by simp
  have htokens := h.tokens
  rw [hsplit] at htokens
  obtain ⟨mid, hfront, -⟩ := (tokenize_eq_ok_iff.mp htokens).1.exists_of_append
  have hlast : m ∈ (front ++ (ls ++ [m])).getLast? := by simp
  have hbreak := hfront.break_of_getLast? (by decide) hlast h.layout.2 h.comment
  obtain ⟨t, ht, hsolid⟩ := h.reading.solid
  exact Card.isRead_of_front (by decide) hlines (fun l hl ↦ (hlines' l hl).unbroken) htokens
    ⟨t, List.mem_append_left _ ht, hsolid⟩ htext (.inr hbreak) (.inr hbreak)

end ListCard

/-- The numbers that are set are read from the text that is written. -/
theorem holdsValues_of_setValues? {card card' : Card} {d d' : DataRecord} {l : FieldList}
    {ns : List (Option Int)} (h : card.parse = .ok (.data d)) (htakes : d.TakesNumbers l ns)
    (hbehind : d.parameters.params = [] ∨ d.SetsApart card l)
    (hset : d.setValues? .standard (ns.map (·.map .int)) = some d')
    (htext : card'.text = (d'.render .standard).text) (hblock : card'.block = card.block)
    (hread : (∀ l ∈ card.lines ++ card'.lines, Line.IsLegible l) ∨ card'.isRead = false)
    (hlength : card'.text.length ≤ Limits.tokens) :
    ∃ r, card'.parse = .ok (.data r) ∧ r.HoldsValues ns := by
  obtain ⟨front, ls, m, vs, ws, hcard⟩ := exists_listCard h htakes hbehind
  obtain ⟨is, ms, k, hstrung, hstands, hms⟩ := (hcard.isTidy htakes.whole).exists_strung
    (fun hend ↦ hcard.room (by simpa using hend)) htakes.small htakes.length_le htakes.tight
  have hwritten : card'.text = textOf (front ++ (ls ++ [m])) ++
      ((l.setValues .standard (ns.map (·.map .int))).render .standard).text ++ textOf ws := by
    rw [htext, text_of_setValues? htakes.body hset, hcard.reading.source, hcard.written]
  obtain ⟨ks, us, ws', htokens, hshows, hks, halike, hbars⟩ :=
    hcard.exists_tokens hwritten hstrung hlength
  have hending := hcard.reading.ending.alike halike
  have hvalues :
      GivesSome (Production.values .data .real) (us ++ ws')
        (fun l ↦ List.Forall₂ ReadsAs l.values ms) ws' :=
    givesSome_values (fun u hu ↦ spells_of_tokensFrom htokens u (by simp [hu]))
      (hshows.shows.followed hending.solid) hending.inFront_eq hstands
  obtain ⟨r, hr, l', hbody, hholds⟩ := hcard.exists_parse hshows hks halike hbars hvalues
  have hold := Card.isRead_of_data h
  have hnew : card'.isRead = false := hread.elim
    (fun hlines ↦ (hcard.isRead_eq (hwritten.trans (String.append_assoc ..)) hlines).trans hold) id
  have hgrammar : Grammar.ofCard card' = .data := by
    rw [← (Card.ofCard_of_data h).1, Grammar.ofCard, Grammar.ofCard, hold, hnew, hblock]
  refine ⟨r, Card.parse_of_tokens hgrammar htokens hr, k, ?_⟩
  have hentries : r.values = l'.values := by rw [values, hbody, DataBody.entries]
  rw [hentries, ← hms]
  exact List.rel_append hholds (forall₂_replicate k trivial)

/-- A repeat takes two more numbers, and its count another digit.  The parameter behind it is
kept. -/
theorem holdsValues_of_longer_count : ∃ (card card' : Card) (d d' r : DataRecord) (l : FieldList),
    card.lines = ["f4 1 9r $ cells", "     vol=2"] ∧ card.parse = .ok (.data d) ∧
      d.TakesNumbers l (List.replicate 12 (some 4)) ∧ d.SetsApart card l ∧
      d.setValues? .standard ((List.replicate 12 (some 4)).map (·.map .int)) = some d' ∧
      card'.text = (d'.render .standard).text ∧ card'.parse = .ok (.data r) ∧
      r.HoldsValues (List.replicate 12 (some 4)) := by
  let card : Card := ⟨.data, ["f4 1 9r $ cells", "     vol=2"], "deck", 1, 0⟩
  let card' : Card := ⟨.data, ["f4 4 11r $ cells", "     vol=2"], "deck", 1, 0⟩
  let ns : List (Option Int) := List.replicate 12 (some 4)
  let vs : List (Option Value) := ns.map (·.map .int)
  let checks (d : DataRecord) : Bool := d.list?.any fun l ↦
    decide (∀ i ∈ l.items, i.IsWhole) && !Text.sameWord d.classifier.word "m" &&
      d.room.any (!·.hasOpenComment) &&
      decide (∀ i ∈ (l.setValues .standard vs).items, i.IsTight) &&
      (({ d with parameters := .empty } : DataRecord).source ++
        (d.parameters.render .standard).text == card.text && layoutText l.tail != "" &&
        decide (2 ≤ word (d.parameters.render .standard).text.toList)) &&
      (d.setValues? .standard vs).any fun d' ↦ (d'.render .standard).text == card'.text
  obtain ⟨d, hd, hchecks⟩ := exists_data card checks (by decide +kernel)
  obtain ⟨l, hl, hchecks⟩ := (Option.any_eq_true _ _).mp hchecks
  simp only [Bool.and_eq_true, Bool.not_eq_true', decide_eq_true_eq, bne_iff_ne, beq_iff_eq,
    Option.any_eq_true] at hchecks
  obtain ⟨⟨⟨⟨⟨hwhole, hother⟩, layout, hlayout, hopen⟩, htight⟩, ⟨hwritten, hroom⟩, hnamed⟩,
      d', hset, htext⟩ := hchecks
  have htakes : d.TakesNumbers l ns := {
    body := body_of_list? hl
    whole := hwhole
    other := hother
    room := ⟨layout, hlayout, hopen⟩
    small := fun v hv ↦ by
      rw [List.eq_of_mem_replicate hv]
      decide
    length_le := by decide
    tight := htight }
  have hapart : d.SetsApart card l := ⟨hwritten, hroom, hnamed⟩
  obtain ⟨r, hr, hholds⟩ := holdsValues_of_setValues? hd htakes (.inr hapart) hset htext.symm rfl
    (.inl (by decide +kernel)) (by decide +kernel)
  exact ⟨card, card', d, d', r, l, rfl, hd, htakes, hapart, hset, htext.symm, hr, hholds⟩

/-- A count that gets shorter is padded to the width of its token, and its letter stands alone
behind the blank: it is one repeat more, and the count is a value. -/
theorem not_holdsValues_of_shorter_count :
    ∃ (card card' : Card) (d d' r : DataRecord), card.block = .data ∧ card.lines = ["nps 1 12r"] ∧
      card.parse = .ok (.data d) ∧
      d.setValues? .standard ([some 5, some 5, some 5].map (·.map .int)) = some d' ∧
      card'.block = .data ∧ card'.text = (d'.render .standard).text ∧ card'.parse = .ok (.data r) ∧
      ¬r.HoldsValues [some 5, some 5, some 5] := by
  let card : Card := ⟨.data, ["nps 1 12r"], "deck", 1, 0⟩
  let card' : Card := ⟨.data, ["nps 5 2 r"], "deck", 1, 0⟩
  obtain ⟨d, hd, hset⟩ := exists_data card (fun d ↦ (d.setValues? .standard
    ([some 5, some 5, some 5].map (·.map .int))).any fun d' ↦
      (d'.render .standard).text == card'.text) (by decide +kernel)
  obtain ⟨d', hd', htext⟩ := (Option.any_eq_true _ _).mp hset
  obtain ⟨r, hr, hvalues⟩ :=
    exists_data card' (fun r ↦ decide (r.values = [some (.real 5), some (.real 2), some (.real 2)]))
      (by decide +kernel)
  refine ⟨card, card', d, d', r, rfl, rfl, hd, hd', rfl, (eq_of_beq htext).symm, hr, ?_⟩
  rintro ⟨k, hk⟩
  rw [of_decide_eq_true hvalues] at hk
  obtain ⟨-, hrest⟩ := List.forall₂_cons.mp hk
  obtain ⟨⟨x, hx, hfive⟩, -⟩ := List.forall₂_cons.mp hrest
  obtain rfl : (2.0 : Float) = x := Option.some.inj hx
  have htwo : HoldsInt (Float.ofInt 2) 2 := holdsInt_ofInt (by decide)
  exact absurd (htwo.eq_of_beq hfive (by decide +kernel)) (by decide)

end DataRecord

end TransportDeck
