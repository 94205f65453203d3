import TransportDeck.Proofs.Grammar.KeywordParameters
import TransportDeck.Proofs.Grammar.Records
import TransportDeck.Proofs.Node.Echo
import TransportDeck.Record.Basic

/-!
# New parameters and nuclides

A parameter that is put behind others is written behind what they are written as and the room that
is made for it.  One with a keyword and an integer is written as its name, its particles, an equals
sign and the integer.
-/

namespace TransportDeck

/-! ## Room -/

namespace Parameters

/-- The parameters, with room behind the last one. -/
def withRoom (ps : Parameters) : Parameters :=
  { ps with params := mapLast Parameter.closed ps.params }

theorem text_render (ps : Parameters) (t : Tolerance) :
    (ps.render t).text = String.join (ps.params.map fun p ↦ (p.render t).text) := by
  rw [render, Rendered.text_concat, List.map_map]
  rfl

variable {ps ps' : Parameters} {p : Parameter}

/-- A new parameter is put behind the others, and there is room in front of it. -/
theorem params_of_insert (h : ps.insert p = .ok ps') :
    (ps.place? p.key).isSome = false ∧ ps'.params = ps.withRoom.params ++ [p] := by
  unfold insert at h
  split_ifs at h with hthere
  obtain rfl := Except.ok.inj h
  exact ⟨by simpa using hthere, rfl⟩

theorem text_insert (h : ps.insert p = .ok ps') (t : Tolerance) :
    (ps'.render t).text = (ps.withRoom.render t).text ++ (p.render t).text := by
  rw [text_render, text_render, (params_of_insert h).2, List.map_append, String.join_append]
  simp

end Parameters

namespace CellRecord

/-- The cell, with room behind its last parameter. -/
def withRoom (c : CellRecord) : CellRecord := c.setParameters c.parameters.withRoom

/-- A cell is written as its heading and its parameters behind that. -/
theorem text_setParameters (c : CellRecord) (ps : Parameters) (t : Tolerance) :
    ((c.setParameters ps).render t).text =
      ((c.setParameters .empty).render t).text ++ (ps.render t).text := by
  have hempty : ((Parameters.empty).render t).text = "" := rfl
  have hparameters : (c.setParameters .empty).parameters = .empty := rfl
  simp only [render, Rendered.text_append, hparameters, hempty, String.append_empty]
  rfl

variable {c : CellRecord} {p : Parameter} {ps : Parameters}

theorem text_insert (h : c.parameters.insert p = .ok ps) (t : Tolerance) :
    ((c.setParameters ps).render t).text = (c.withRoom.render t).text ++ (p.render t).text := by
  rw [withRoom, text_setParameters, Parameters.text_insert h,
    text_setParameters c c.parameters.withRoom, String.append_assoc]

end CellRecord

/-! ## Keywords -/

/-- The classifier spells a keyword, and particles that are letters. -/
structure Classifier.IsKeyword (cl : Classifier) (name : String) (letters : List Char) : Prop where
  keyword : Vocabulary.isKeyword name = true
  particles : ∀ c ∈ letters, c.isAlpha = true ∧ Vocabulary.isParticle c = true
  word : cl.name.toText? = some name
  number : cl.number = none
  symbols : cl.particles.map ParticleList.symbols = if letters.isEmpty then none
    else some (letters.map Char.toUpper)
  text_eq (t : Tolerance) : (cl.render t).text = name ++ String.ofList (particleSource letters)

theorem Classifier.key_congr {c d : Classifier} (hword : c.name.toText? = d.name.toText?)
    (hc : c.number = none) (hd : d.number = none)
    (hsymbols : c.particles.map ParticleList.symbols = d.particles.map ParticleList.symbols) :
    c.key = d.key := by
  have hkeys : c.particles.map ParticleList.key = d.particles.map ParticleList.key := by
    have hkey : ParticleList.key =
      (fun cs ↦ ParticleList.joined (ParticleList.sorted (cs.map Char.toLower))) ∘
        ParticleList.symbols := rfl
    rw [hkey, ← Option.map_map, hsymbols, Option.map_map]
  have hnumber {e : Classifier} (he : e.number = none) : e.numberValue? = none := by
    rw [numberValue?, he]
    rfl
  rw [key, key, word, word, hword, hnumber hc, hnumber hd]
  revert hkeys
  cases c.particles <;> cases d.particles <;> simp

/-- A field that no token has been read for is written in the plain style. -/
theorem Field.text_render_unread {f : Field} {v : Value} (htoken : f.token = none)
    (hread : f.asRead = none) (hv : f.signed = some v) (t : Tolerance) : (f.render t).text =
      NumberStyle.plain.render t v ++ (f.afterValue .plain (NumberStyle.plain.render t v)).1 ++
        (f.afterValue .plain (NumberStyle.plain.render t v)).2 := by
  have hchanged : f.hasChanged t = true := by simp [hasChanged, hv, hread]
  have hstyle : f.style = .plain := by simp [style, htoken]
  have hpad (text : String) : Text.padRight NumberStyle.plain.width text = text := by
    simp [Text.padRight, NumberStyle.plain]
  simp only [render, hchanged, hv, renderChanged, hstyle, hpad, Bool.not_true,
    Bool.false_eq_true, if_false]

theorem Field.text_render_int (n : Int) (t : Tolerance) :
    ((Field.int n).render t).text = toString n := by
  have hrender : NumberStyle.plain.render t (.int n) = toString n := Number.renderInt_plain n
  have hsigned : (Field.int n).signed = some (.int n) := rfl
  rw [text_render_unread rfl rfl hsigned t, hrender]
  exact String.append_empty.trans String.append_empty

namespace Parameter

variable {cl : Classifier} {name : String} {letters : List Char} {n : Int}

/-- A new parameter is written as its tokens stand one behind the other. -/
theorem text_ofValues (h : cl.IsKeyword name letters) (t : Tolerance) :
    ((ofValues cl [Field.int n]).render t).text = String.ofList (keywordSource name letters n) := by
  have hvalues :
      (((spaceOut [Field.int n]).foldl FieldList.pushField .empty).render t).text = toString n := by
    change ("" ++ ((Field.int n).render t).text) ++ "" = _
    rw [Field.text_render_int]
    simp
  have hseparator : layoutText (some (Layout.ofLiteral "=")) = "=" := Layout.text_ofLiteral "="
  rw [← String.toList_inj, render, ofValues]
  simp only [Rendered.text_append, Rendered.text_ofText, hvalues, hseparator, h.text_eq,
    String.toList_append, String.toList_ofList, keywordSource]
  simp

theorem key_eq_of_isKeywordParameter {q : Parameter} (h : cl.IsKeyword name letters)
    (hq : Production.IsKeywordParameter name letters n q) (values : List Field) :
    q.key = (ofValues cl values).key :=
  Classifier.key_congr (hq.word.trans h.word.symm)
    hq.number h.number (hq.particles.trans h.symbols.symm)

end Parameter

/-!
## New nuclides

A pair that is put behind the others of a material is written behind what they are written as and
the room that is made for it.  Nothing is put behind its amount.
-/

/-- What is put behind a layout to make room for another pair. -/
def Layout.room (l : Layout) : String :=
  if l.isEmpty then " " else if l.hasOpenComment then "\n" else ""

namespace Nuclide

/-- What a pair says: a name and an amount. -/
def entry (n : Nuclide) : String × Float × Bool := (n.name, n.fraction, n.byWeight)

theorem text_closed {n : Nuclide} (h : n.amount.IsRead) (t : Tolerance) :
    (n.closed.render t).text = (n.render t).text ++ n.amount.layoutOrEmpty.room := by
  have hlayout : n.amount.layoutOrEmpty.text = layoutText n.amount.layout := Layout.text_getD _
  have hroom : layoutText n.closed.amount.layout =
      layoutText n.amount.layout ++ n.amount.layoutOrEmpty.room := by
    rw [← hlayout]
    change (if n.amount.layoutOrEmpty.isEmpty then _ else _ : Layout).text = _
    unfold Layout.room Layout.closeComment
    split_ifs <;> simp [Piece.text]
  have hclosed : n.closed.amount.IsRead := h
  rw [render, render, Rendered.text_append, Rendered.text_append, h.render, hclosed.render,
    Rendered.text_ofText, Rendered.text_ofText, Field.source, Field.source, hroom,
    String.append_assoc, String.append_assoc]
  rfl

/-- A pair that was not read, with the amount one. -/
def one (zaid : String) : Nuclide :=
  (Nuclide.of ((Field.text zaid).withLayout .gap) (.real 0.0)).setFraction 1.0 false

theorem text_one (zaid : String) (t : Tolerance) : ((one zaid).render t).text = zaid ++ " 1" := by
  have hid : ((one zaid).id.render t).text = zaid ++ " " := by
    have hsigned : (one zaid).id.signed = some (.text zaid) := rfl
    have happart : Field.keptApart .gap = false := by decide +kernel
    rw [Field.text_render_unread rfl rfl hsigned t]
    change zaid ++ (if zaid.utf8ByteSize ≥ 0 && !Field.keptApart .gap then " " else "") ++
      Layout.text ⟨[]⟩ = _
    simp [happart, Layout.text]
  have hamount : ((one zaid).amount.render t).text = "1" := by
    have hsigned : (one zaid).amount.signed = some (.real (Float.abs (Float.abs 1.0))) := rfl
    have hvalue : NumberStyle.plain.render t (.real (Float.abs (Float.abs 1.0))) = "1" := rfl
    rw [Field.text_render_unread rfl rfl hsigned t, hvalue]
    rfl
  rw [render, Rendered.text_append, hid, hamount, String.append_assoc]
  rfl

end Nuclide

namespace Nuclides

variable {ns : Nuclides}

/-- What is put behind the last amount to make room for another pair. -/
def room (ns : Nuclides) : String := (ns.trailing?.getD .empty).room

theorem mapLast_concat (g : Nuclide → Nuclide) (ns : List Nuclide) (n : Nuclide) :
    mapLast g (ns ++ [n]) = ns ++ [g n] := by
  induction ns with
  | nil => rfl
  | cons m ns ih =>
    cases ns with
    | nil => rfl
    | cons k ns => exact congrArg (m :: ·) ih

/-- A pair with the amount one is written behind the others and the room for it. -/
theorem text_add (h : ns.IsRead) (hne : ns.pairs ≠ []) (zaid : String) (t : Tolerance) :
    ((ns.add zaid 1.0 false).render t).text = ns.source ++ ns.room ++ (zaid ++ " 1") := by
  obtain ⟨pairs⟩ := ns
  obtain ⟨init, n, rfl⟩ := (List.eq_nil_or_concat' pairs).resolve_left hne
  have hamount : n.amount.IsRead := (h n (by simp)).2
  have hroom : room ⟨init ++ [n]⟩ = n.amount.layoutOrEmpty.room := by
    rw [room, trailing?, List.getLast?_concat]
    rfl
  have hadd : (add ⟨init ++ [n]⟩ zaid 1.0 false).pairs =
      init ++ [n.closed] ++ [Nuclide.one zaid] := by
    rw [← mapLast_concat]
    rfl
  rw [← h.render t, render, render, hadd, Rendered.text_concat, Rendered.text_concat, hroom]
  simp [String.join_append, Nuclide.text_closed hamount, Nuclide.text_one, String.append_assoc]

end Nuclides

theorem Parameters.eq_nil_of_closed {ps : Parameters} (h : ps.closed = .empty) :
    ps.params = [] := by
  have hclosed : closeAll ps.params = [] := congrArg params h
  have hunits := map_closeAll (f := fun _ ↦ ()) (fun _ ↦ rfl) ps.params
  rw [hclosed] at hunits
  exact List.map_eq_nil_iff.mp hunits.symm

/-- A material without parameters is written as it was read, with the new pair behind it. -/
theorem DataRecord.text_add {card : Card} {d : DataRecord} {ns : Nuclides}
    (h : card.parse = .ok (.data d)) (hbody : d.body = .nuclides ns) (hnone : d.parameters = .empty)
    (hne : ns.pairs ≠ []) (zaid : String)
    (t : Tolerance) :
    (({ d with body := .nuclides (ns.add zaid 1.0 false) } : DataRecord).render t).text =
      card.text ++ ns.room ++ (zaid ++ " 1") := by
  obtain ⟨raw, hraw, hread, hsource⟩ := Card.readAs_of_parse h
  cases raw with
  | data raw =>
    obtain rfl : raw.closed = d := Record.data.inj hraw
    obtain ⟨leading, cl, keyword, body, ps⟩ := raw
    change body = .nuclides ns at hbody
    change ps.closed = .empty at hnone
    subst hbody
    have hclassifier : cl.IsRead := hread.classifier
    have hpairs : ns.IsRead := hread.body
    have hparameters : ps.source = "" := by
      rw [Parameters.source, Parameters.eq_nil_of_closed hnone]
      rfl
    have htext : layoutText leading ++ cl.source ++ fieldSource keyword ++ ns.source ++ ps.source =
        card.text := hsource
    change layoutText leading ++ (cl.render t).text ++ (renderField t keyword).text ++
      ((ns.add zaid 1.0 false).render t).text ++ (ps.closed.render t).text = _
    have hnothing : (Parameters.empty.render t).text = "" := rfl
    rw [hclassifier.render, renderField_of_isRead hread.keyword, Nuclides.text_add hpairs hne,
      hnone, hnothing, ← htext, hparameters]
    simp only [String.append_empty, String.append_assoc]
  | _ => cases hraw

end TransportDeck
