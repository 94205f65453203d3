import TransportDeck.Proofs.Node.GeometryTree
import TransportDeck.Proofs.Number.Printing

/-!
# Which nodes are written as their source

What is written for a node differs from its source in few places: a jump over no places goes, a
factor is worked out anew, and a blank is put where two parts would touch.  A jump that goes takes
its letter along, and no other difference brings one; all others make the text no shorter.
Differences can therefore not make up for one another, and the text is the source only if every part
is.
-/

namespace TransportDeck

/-- The number of letters of jumps. -/
def jumpCount (s : String) : Nat := s.toList.countP Lexer.isJumpLetter

/-- The letters of jumps are counted along a text. -/
@[simp] theorem jumpCount_append (s u : String) :
    jumpCount (s ++ u) = jumpCount s + jumpCount u := by
  simp [jumpCount]

/-- A text without such letters has none to be counted. -/
theorem jumpCount_eq_zero {s : String} (h : JumpFree s.toList) : jumpCount s = 0 := by
  rw [jumpCount, List.countP_eq_zero]
  intro c hc
  simp [h c hc]

/-- A text that is written for a source, which it is exactly under a condition. -/
structure Echoes (P : Prop) (text source : String) : Prop where
  jumps_le : jumpCount text ≤ jumpCount source
  length_le : jumpCount text = jumpCount source → source.length ≤ text.length
  eq_iff : text = source ↔ P

namespace Echoes

variable {P P' : Prop} {text text' source source' : String}

theorem refl (text : String) : Echoes True text text :=
  ⟨le_rfl, fun _ ↦ le_rfl, iff_of_true rfl trivial⟩

/-- A text that is its own source echoes it. -/
theorem of_eq (h : text = source) : Echoes True text source := h ▸ refl text

theorem congr (h : Echoes P text source) (hP : P ↔ P') : Echoes P' text source :=
  ⟨h.jumps_le, h.length_le, h.eq_iff.trans hP⟩

/-- Echoes are put one behind the other. -/
theorem append (h : Echoes P text source) (h' : Echoes P' text' source') :
    Echoes (P ∧ P') (text ++ text') (source ++ source') where
  jumps_le := by
    have := h.jumps_le
    have := h'.jumps_le
    simp only [jumpCount_append]
    omega
  length_le := by
    intro hj
    have := h.jumps_le
    have := h'.jumps_le
    simp only [jumpCount_append, String.length_append] at hj ⊢
    have := h.length_le (by omega)
    have := h'.length_le (by omega)
    omega
  eq_iff := by
    constructor
    · intro heq
      -- Nothing has been lost, so no part is shorter than its source, and so each is as long.
      have hj := congrArg jumpCount heq
      have hlen := congrArg String.length heq
      have := h.jumps_le
      have := h'.jumps_le
      simp only [jumpCount_append, String.length_append] at hj hlen
      have := h.length_le (by omega)
      have := h'.length_le (by omega)
      have hlists := congrArg String.toList heq
      rw [String.toList_append, String.toList_append] at hlists
      obtain ⟨h₁, h₂⟩ := List.append_inj hlists (by
        rw [String.length_toList, String.length_toList]
        omega)
      exact ⟨h.eq_iff.mp (String.toList_inj.mp h₁), h'.eq_iff.mp (String.toList_inj.mp h₂)⟩
    · rintro ⟨hP, hP'⟩
      rw [h.eq_iff.mpr hP, h'.eq_iff.mpr hP']

/-- Characters put behind the text are not in the source. -/
theorem grow (h : Echoes P text source) {more : String} (hfree : JumpFree more.toList)
    (hne : more ≠ "") : Echoes False (text ++ more) source where
  jumps_le := by
    rw [jumpCount_append, jumpCount_eq_zero hfree]
    exact h.jumps_le
  length_le := by
    rw [jumpCount_append, jumpCount_eq_zero hfree, String.length_append]
    intro hj
    have := h.length_le hj
    omega
  eq_iff := by
    refine iff_of_false ?_ not_false
    intro heq
    have hj := congrArg jumpCount heq
    have hlen := congrArg String.length heq
    rw [jumpCount_append, jumpCount_eq_zero hfree] at hj
    rw [String.length_append] at hlen
    have := h.length_le hj
    have hpos : 0 < more.length := Nat.pos_of_ne_zero fun h ↦ hne (String.length_eq_zero_iff.mp h)
    omega

/-- The texts of a list echo their sources if each of them does. -/
theorem join {α : Type} {P : α → Prop} {text source : α → String} {l : List α}
    (h : ∀ a ∈ l, Echoes (P a) (text a) (source a)) :
    Echoes (∀ a ∈ l, P a) (String.join (l.map text)) (String.join (l.map source)) := by
  induction l with
  | nil => exact (refl "").congr (by simp)
  | cons a l ih =>
    obtain ⟨ha, hl⟩ := List.forall_mem_cons.mp h
    rw [List.map_cons, List.map_cons, String.join_cons, String.join_cons]
    exact (ha.append (ih hl)).congr (by simp)

end Echoes

/-! ## Factors -/

/-- A text has at least as many bytes as characters. -/
theorem length_le_utf8ByteSize (s : String) : s.length ≤ s.utf8ByteSize := by
  rw [← String.ofList_toList (s := s)]
  generalize s.toList = cs
  induction cs with
  | nil => exact Nat.zero_le _
  | cons c cs ih =>
    have hcons : String.ofList (c :: cs) = String.singleton c ++ String.ofList cs := by
      rw [String.singleton_eq_ofList, ← String.ofList_append]
      rfl
    have hpos := c.utf8Size_pos
    rw [hcons, String.length_append, String.utf8ByteSize_append, String.utf8ByteSize_singleton,
      String.length_singleton]
    omega

/-- What is padded is as wide as asked for. -/
theorem le_length_padRight (width : Nat) (s : String) : width ≤ (Text.padRight width s).length := by
  rw [Text.padRight, String.length_ofList, List.length_append, List.length_replicate,
    String.length_toList]
  omega

namespace NumberStyle

/-- Asking for other places does not change the width. -/
theorem width_withPlaces (style : NumberStyle) (mantissa : List Char) :
    (style.withPlaces mantissa).width = style.width := by
  unfold withPlaces
  split <;> rfl

/-- A style that follows a token keeps its own width. -/
theorem width_ofRealToken (style : NumberStyle) (token : List Char) :
    (style.ofRealToken token).width = style.width := by
  unfold ofRealToken
  split
  · dsimp only
    rw [width_withPlaces]
    split <;> rfl
  · rw [width_withPlaces]

end NumberStyle

namespace Field

variable {f : Field} {token : String}

/-- A field is printed as wide as its token was. -/
theorem le_width_style (h : f.token = some token) : token.utf8ByteSize ≤ f.style.width := by
  unfold style
  rw [h]
  dsimp only
  split_ifs
  · exact Nat.le_add_right _ _
  · rw [NumberStyle.width_ofRealToken]
    exact Nat.le_add_right _ _
  · exact Nat.le_add_right _ _

/-- A number that is written anew keeps the place of its token. -/
theorem echoes_setValue (h : Parsed token none f) (hkind : f.kind = .real) (t : Tolerance)
    (x : Float) : Echoes (((f.setValue (some (.real x))).render t).text = token)
      ((f.setValue (some (.real x))).render t).text token := by
  set f' := f.setValue (some (.real x)) with hf'
  obtain ⟨v, hvalue, -, -⟩ := h.value_eq
  have htoken : f'.token = some token := h.token_eq
  have hlayout : f'.layout = none := by
    rw [hf', setValue, hvalue]
    exact h.layout_eq
  have hsigned : f'.signed = some (.real x) := by
    have hflag : f'.signFlag.apart = false := h.not_apart
    rw [signed, hflag, Bool.false_and, if_neg (by decide)]
    simp [hf', setValue, kept, hkind, h.not_apart, Value.coerce]
  unfold Field.render
  split_ifs with hchanged
  · have htext : f'.token.getD "" ++ layoutText f'.layout = token := by
      rw [htoken, hlayout]
      exact String.append_empty
    exact (Echoes.of_eq htext).congr (iff_of_true trivial htext)
  · rw [hsigned]
    have hwidth := le_width_style htoken
    have hfree : JumpFree (f'.renderChanged t (.real x)).text.toList := by
      simp only [renderChanged, afterValue, hlayout, String.append_empty]
      exact NumberStyle.jumpFree_padRight (NumberStyle.jumpFree_renderReal f'.jumpFree_style t x) _
    have hlength : token.length ≤ (f'.renderChanged t (.real x)).text.length := by
      simp only [renderChanged, afterValue, hlayout, String.append_empty]
      exact (length_le_utf8ByteSize token).trans (hwidth.trans (le_length_padRight _ _))
    refine ⟨?_, fun _ ↦ hlength, Iff.rfl⟩
    rw [jumpCount_eq_zero hfree]
    exact Nat.zero_le _

end Field

/-! ## Runs and lists -/

namespace Shorthand

variable {s : Shorthand}

/-- The lead of a run that was read is written as it was read. -/
theorem IsRead.text_renderLead (h : s.IsRead) (t : Tolerance) :
    (s.renderLead t).text = s.leadSource := by
  unfold renderLead leadSource
  by_cases hlead : s.hasLead = true
  · obtain ⟨f, hf, hread⟩ := h.lead hlead
    cases hs : s.members with
    | nil => simp [hs] at hf
    | cons g gs =>
      obtain rfl : g = f := by simpa [hs] using hf
      simp [hlead, hread.render, fieldSource]
  · cases s.members <;> simp [hlead] <;> rfl

/-- A factor echoes its token: it is printed as wide, and without the letter of a jump. -/
theorem IsRead.echoes_factor (h : s.IsRead) (hkind : s.kind = .multiply) :
    Echoes ((s.renderFactor .standard).text = s.countToken) (s.renderFactor .standard).text
      s.countToken := by
  obtain ⟨f, token, hcount, hreal, hparsed⟩ := h.factor hkind
  have htoken : s.countToken = token := by
    rw [countToken, hcount]
    exact congrArg (·.getD "") hparsed.token_eq
  rw [htoken, renderFactor, hcount]
  exact Field.echoes_setValue hparsed hreal _ _

/-- Layout in the middle echoes its source if there was any. -/
theorem echoes_mid (l : Option Layout) :
    Echoes (l.isSome = true) ((l.map Layout.text).getD " ") (layoutText l) := by
  cases l with
  | some l => exact (Echoes.refl l.text).congr (by simp)
  | none =>
    have hgrow : Echoes False ("" ++ " ") "" := (Echoes.refl "").grow (by decide) (by decide)
    exact hgrow.congr (by simp)

/-- A run echoes its source, and faithfully if it can be written as it was read. -/
theorem IsRead.echoes (h : s.IsRead) : Echoes s.Faithful (s.render .standard).text s.source := by
  have hlead := h.text_renderLead .standard
  have hcount := fun hne ↦ h.count hne .standard
  unfold render source behindSource Faithful
  rcases hkind : s.kind with _ | _ | _ | _ | _
  case jump =>
    have hnone := h.no_lead hkind
    have hsource : s.leadSource = "" := by
      simp [leadSource, hasLead, hkind]
    have hplaces : s.places = s.members.length := by
      simp [places, hnone, hkind, ShorthandKind.isInterpolation]
    by_cases hmembers : s.members = []
    · obtain ⟨c, hc, hj⟩ := h.letter hkind
      have hpos : 0 < jumpCount s.letters := List.countP_pos_iff.mpr ⟨c, hc, hj⟩
      have hempty : jumpCount Rendered.empty.text = 0 := rfl
      simp only [hmembers, List.isEmpty_nil, if_true]
      refine ⟨?_, ?_, ?_⟩
      · rw [hempty]
        exact Nat.zero_le _
      · simp only [jumpCount_append, hempty]
        omega
      · refine iff_of_false ?_ (not_not_intro rfl)
        intro heq
        have hj := congrArg jumpCount heq
        simp only [jumpCount_append, hempty] at hj
        omega
    · have htext := hcount (by rw [hkind]; decide)
      rw [hplaces] at htext
      have hisEmpty : s.members.isEmpty = false := by simpa using hmembers
      refine (Echoes.of_eq ?_).congr (iff_of_true trivial hmembers)
      simp [hisEmpty, htext, hsource, ShorthandKind.isInterpolation]
  case copies =>
    have htext := hcount (by rw [hkind]; decide)
    have hplaces : s.places = s.members.length - s.leadCount := by
      simp [places, hkind, ShorthandKind.isInterpolation]
    rw [hplaces] at htext
    refine Echoes.of_eq ?_
    simp [hlead, htext, ShorthandKind.isInterpolation, String.append_assoc]
  case multiply =>
    have hfactor := h.echoes_factor hkind
    have hall := ((Echoes.refl s.leadSource).append
      (hfactor.append (.refl s.letters))).append (.refl (layoutText s.endLayout))
    simp only [Rendered.text_append, Rendered.text_ofText, hlead, ShorthandKind.isInterpolation,
      String.append_assoc] at hall ⊢
    exact hall.congr (by simp)
  case linear | logarithmic =>
    have hinter : s.kind.isInterpolation = true := by rw [hkind]; rfl
    have htext := hcount (by rw [hkind]; decide)
    have hplaces : s.places = s.members.length - (s.leadCount + 1) := by
      simp [places, hinter]
    rw [hplaces] at htext
    obtain ⟨f, hf, hread⟩ := h.last hinter
    have hf : s.members.getLast? = some f := hf
    have hall := ((Echoes.refl (s.leadSource ++ (s.countToken ++ s.letters))).append
      (echoes_mid s.midLayout)).append (.refl f.source)
    simp only [Rendered.text_append, Rendered.text_ofText, hlead, htext, hf, hread.render,
      fieldSource, Option.map_some, Option.getD_some, ShorthandKind.isInterpolation, if_true,
      String.append_assoc] at hall ⊢
    exact hall.congr (by simp)

end Shorthand

/-- An item echoes its source. -/
theorem Item.IsRead.echoes {i : Item} (h : i.IsRead) :
    Echoes i.Faithful (i.render .standard).text i.source := by
  cases i with
  | field f => exact Echoes.of_eq (congrArg Rendered.text (Field.IsRead.render h .standard))
  | run s => exact Shorthand.IsRead.echoes h

/-- The parts of a list are written one behind the other. -/
theorem FieldList.foldl_addPart (out : Rendered) (parts : List Rendered) :
    (parts.foldl (addPart false) out).text = out.text ++ String.join (parts.map Rendered.text) := by
  induction parts generalizing out with
  | nil => exact String.append_empty.symm
  | cons p parts ih =>
    rw [List.foldl_cons, ih, List.map_cons, String.join_cons, ← String.append_assoc]
    rfl

/-- A list echoes its source if its items do. -/
theorem FieldList.IsRead.echoes {l : FieldList} (h : l.IsRead) :
    Echoes l.Faithful (l.render .standard).text l.source := by
  have hitems := (Echoes.join fun i hi ↦ (h.items i hi).echoes).append
    (.refl (layoutText l.tail))
  have htext : (l.render .standard).text =
      String.join (l.items.map fun i ↦ (i.render .standard).text) ++ layoutText l.tail := by
    rw [FieldList.render, Rendered.text_append, h.not_rebuilt, foldl_addPart, List.map_map]
    simp only [Rendered.text_ofText]
    exact congrArg (· ++ layoutText l.tail) String.empty_append
  rw [htext]
  exact hitems.congr (by simp [Faithful])

/-! ## Parameters -/

/-- A classifier that was read is written as it was read. -/
theorem Classifier.IsRead.render {c : Classifier} (h : c.IsRead) (t : Tolerance) :
    (c.render t).text = c.source := by
  have hparticles : (c.particles.map ParticleList.text).getD "" =
      (c.particles.bind (·.token)).getD "" := by
    cases hp : c.particles with
    | none => rfl
    | some p => exact h.particles p hp
  simp only [Classifier.render, Rendered.text_append, Rendered.text_ofText, source,
    renderField_of_isRead h.modifier, h.name.render, renderField_of_isRead h.number, hparticles]

namespace Parameter

variable {p : Parameter}

/-- A parameter echoes its source if its values do. -/
theorem IsRead.echoes (h : p.IsRead) :
    Echoes p.values.Faithful (p.render .standard).text p.source := by
  have hhead := h.classifier.render .standard
  have hall := (Echoes.refl (p.classifier.source ++ layoutText p.separator)).append
    h.values.echoes
  simp only [render, source, Rendered.text_append, Rendered.text_ofText, hhead] at hall ⊢
  exact hall.congr (by simp)

/-- Layout that is put behind a parameter stands behind its text. -/
theorem text_setTail (p : Parameter) (t : Tolerance) (l m : Layout)
    (h : l.text = layoutText p.values.tail ++ m.text) :
    ((p.setTail l).render t).text = (p.render t).text ++ m.text := by
  have htail : layoutText (some l) = layoutText p.values.tail ++ m.text := h
  simp only [render, setTail, FieldList.setTail, FieldList.render, Rendered.text_append,
    Rendered.text_ofText, htail, String.append_assoc]

/-- Room behind a parameter that has none makes its text longer. -/
theorem IsRead.echoes_closed (h : p.IsRead) :
    Echoes (p.values.Faithful ∧ p.IsApart) (p.closed.render .standard).text p.source := by
  have htail : p.values.tailOrEmpty.text = layoutText p.values.tail := Layout.text_getD _
  have longer {l m : Layout} (hfree : JumpFree m.text.toList) (hne : m.text ≠ "")
      (hl : l.text = layoutText p.values.tail ++ m.text) :
      Echoes (p.values.Faithful ∧ l = p.values.tailOrEmpty)
        ((p.setTail l).render .standard).text p.source := by
    have hchanged : l ≠ p.values.tailOrEmpty := by
      rintro rfl
      rw [htail] at hl
      have hlength := congrArg String.length hl
      rw [String.length_append] at hlength
      exact hne (String.length_eq_zero_iff.mp (by omega))
    rw [p.text_setTail .standard l m hl]
    exact (h.echoes.grow hfree hne).congr (iff_of_false not_false fun hc ↦ hchanged hc.2)
  unfold IsApart closed
  split_ifs with hopen hempty
  · unfold Layout.closeComment
    split_ifs with hcomment
    · have hm : (Layout.empty.push .newline).text = "\n" := by simp; rfl
      refine longer (l := p.values.tailOrEmpty.push .newline) (m := Layout.empty.push .newline)
        (by rw [hm]; decide) (by rw [hm]; decide) ?_
      rw [Layout.text_push, htail, hm]
      rfl
    · have htext := p.text_setTail .standard p.values.tailOrEmpty .empty
        (htail.trans String.append_empty.symm)
      rw [htext, Layout.text_empty, String.append_empty]
      exact h.echoes.congr ⟨fun hf ↦ ⟨hf, rfl⟩, And.left⟩
  · refine longer (l := p.values.tailOrEmpty.pushText " ") (m := Layout.gap)
      (by rw [Layout.text_gap]; decide) (by rw [Layout.text_gap]; decide) ?_
    rw [Layout.text_pushText, htail, Layout.text_gap]
  · exact h.echoes.congr ⟨fun hf ↦ ⟨hf, rfl⟩, And.left⟩

end Parameter

/-- Parameters that are closed echo the sources of all of them, if those in front of the last are
apart. -/
theorem Parameters.echoes_closeAll {ps : List Parameter} (h : ∀ p ∈ ps, p.IsRead) :
    Echoes ((∀ p ∈ ps, p.values.Faithful) ∧ ∀ p ∈ ps.dropLast, p.IsApart)
      (String.join ((closeAll ps).map fun p ↦ (p.render .standard).text))
      (String.join (ps.map Parameter.source)) := by
  fun_induction closeAll ps with
  | case1 => exact (Echoes.refl "").congr (by simp)
  | case2 p =>
    have hp := (h p (List.mem_singleton_self p)).echoes.append (.refl "")
    simpa using hp
  | case3 p ps hne ih =>
    obtain ⟨hp, hps⟩ := List.forall_mem_cons.mp h
    have hall := hp.echoes_closed.append (ih hps)
    rw [List.map_cons, List.map_cons, String.join_cons, String.join_cons]
    refine hall.congr ?_
    rw [List.dropLast_cons_of_ne_nil (by simpa using hne), List.forall_mem_cons,
      List.forall_mem_cons]
    tauto

/-- Parameters echo their source once they are closed. -/
theorem Parameters.IsRead.echoes_closed {ps : Parameters} (h : ps.IsRead) :
    Echoes ps.Faithful (ps.closed.render .standard).text ps.source := by
  have hall := echoes_closeAll h
  rw [Parameters.render, Rendered.text_concat, List.map_map]
  exact hall.congr ⟨fun h ↦ ⟨h.1, h.2⟩, fun h ↦ ⟨h.1, h.2⟩⟩

/-! ## Geometries -/

/-- A tree of a geometry echoes its source. -/
theorem GeometryTree.IsRead.echoes {tree : GeometryTree} (h : tree.IsRead) :
    Echoes tree.Faithful (tree.render .standard).text tree.source := by
  induction tree with
  | leaf f => exact Echoes.of_eq (congrArg Rendered.text (Field.IsRead.render h.1 .standard))
  | run s => exact Shorthand.IsRead.echoes h
  | binary op l mark r ihl ihr =>
    exact (((ihl h.1).append (.refl mark.text)).append (ihr h.2)).congr (by simp [Faithful])
  | complement mark u ih =>
    exact ((Echoes.refl mark.text).append (ih h)).congr (by simp [Faithful])
  | group opening u closing ih =>
    exact (((Echoes.refl opening.text).append (ih h)).append (.refl closing.text)).congr
      (by simp [Faithful])

/-- A geometry echoes its source if its tree does. -/
theorem Geometry.IsTree.echoes {g : Geometry} {tree : GeometryTree} (h : g.IsTree tree)
    (hread : tree.IsRead) : Echoes g.Faithful (g.render .standard).text g.source := by
  rw [h.render_eq, h.source_eq]
  exact (hread.echoes.append (.refl (layoutText g.trailing))).congr (by simp [h.faithful_iff])

end TransportDeck
