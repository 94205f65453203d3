import Mathlib.Data.List.TakeWhile
import TransportDeck.Proofs.Node.Source

/-!
# Runs as read

A run that is built from a token has the token and the values around it as its source, and its count
says how many values there are.
-/

namespace TransportDeck

/-- What is bound succeeds if both of its halves do. -/
theorem exists_of_bind_ok {ε α β : Type} {x : Except ε α} {f : α → Except ε β} {b : β}
    (h : x >>= f = .ok b) : ∃ a, x = .ok a ∧ f a = .ok b := by
  cases x with
  | error e => cases h
  | ok a => exact ⟨a, rfl, h⟩

theorem bind_eq_ok {ε α β : Type} {x : Except ε α} {f : α → Except ε β} {a : α} {b : β}
    (h : x = .ok a) (hf : f a = .ok b) : x >>= f = .ok b := by
  rw [h]
  exact hf

/-- The count and the letters of a token are all of it. -/
theorem ShorthandKind.split_append (kind : ShorthandKind) (token : String) :
    (kind.split token).1 ++ (kind.split token).2 = token := by
  unfold split
  split
  · rw [← String.ofList_append, List.dropLast_eq_take, List.take_append_drop,
      String.ofList_toList]
  · rw [← String.ofList_append, List.takeWhile_append_dropWhile, String.ofList_toList]

/-- The letter of a jump is one of the letters of its token. -/
theorem ShorthandKind.letter_split_jump {token : String}
    (h : ∃ c ∈ token.toList, Lexer.isJumpLetter c = true) :
    ∃ c ∈ (jump.split token).2.toList, Lexer.isJumpLetter c = true := by
  obtain ⟨c, hc, hj⟩ := h
  refine ⟨c, ?_, hj⟩
  change c ∈ (String.ofList (token.toList.dropWhile Char.isDigit)).toList
  rw [String.toList_ofList]
  rw [← List.takeWhile_append_dropWhile (p := Char.isDigit) (l := token.toList)] at hc
  obtain hc | hc := List.mem_append.mp hc
  · have hdigit : c.isDigit = true := List.mem_takeWhile_imp hc
    simp only [Lexer.isJumpLetter, Bool.or_eq_true, beq_iff_eq] at hj
    rcases hj with rfl | rfl <;> cases hdigit
  · exact hc

/-- An integer is read from a token with its text and the layout behind it. -/
theorem Field.exists_int_of_parse? {token : String} {l : Option Layout} {f : Field}
    (h : Field.parse? token .int l = some f) : ∃ n : Int,
      f = ⟨some token, some (.int n), some (.int n), .int, l, ⟨false, false⟩, false, false⟩ := by
  obtain ⟨v, hv, rfl⟩ := Option.map_eq_some_iff.mp h
  obtain ⟨n, -, rfl⟩ := Option.map_eq_some_iff.mp hv
  exact ⟨n, rfl⟩

/-- A field is of the kind that it is read as. -/
theorem Field.kind_of_parse? {token : String} {kind : ValueKind} {l : Option Layout} {f : Field}
    (h : Field.parse? token kind l = some f) : f.kind = kind := by
  obtain ⟨v, -, rfl⟩ := Option.map_eq_some_iff.mp h
  rfl

@[simp] theorem Field.signed_new_self (v : Value) :
    (Field.new (some v) v.kind).signed = some v := by
  cases v <;> rfl

@[simp] theorem Field.signed_withLayout (f : Field) (l : Layout) :
    (f.withLayout l).signed = f.signed := rfl

namespace Lead

def source : Lead → String
  | owned f => f.source
  | chained _ => ""

def IsRead : Lead → Prop
  | owned f => f.IsRead
  | chained _ => True

/-- The field that copies are made of.  A chained run knows no more than the value that it goes on
from. -/
def template : Lead → Field
  | owned f => f
  | chained v => Field.new v ((v.map Value.kind).getD .real)

/-- The template of a lead has the value of the lead. -/
theorem signed_template {lead : Lead} {v : Value} (h : lead.value = some v) :
    lead.template.signed = some v := by
  cases lead with
  | owned f => exact h
  | chained u =>
    obtain rfl : u = some v := h
    exact Field.signed_new_self v

end Lead

namespace Shorthand

variable {id : Nat} {kind : ShorthandKind} {token : String} {l : Option Layout} {s : Shorthand}

/-- The token of a run, without its members. -/
structure OfToken (kind : ShorthandKind) (token : String) (l : Option Layout) (s : Shorthand) :
    Prop where
  kind_eq : s.kind = kind
  token_eq : s.countToken ++ s.letters = token
  letters_eq : s.letters = (kind.split token).2
  endLayout_eq : s.endLayout = l
  count : ∀ f ∈ s.count, ∃ token g, Field.parse? token (countKind kind) none = some g ∧
    f = g.neverPad

/-- The bare run of a token has the parts of the token. -/
theorem ofToken_ok (h : ofToken id kind token l = .ok s) : OfToken kind token l s := by
  have hsplit := kind.split_append token
  unfold ofToken at h
  dsimp only at h
  split_ifs at h with hempty
  · obtain rfl := Except.ok.inj h
    have hcount : (kind.split token).1 = "" := by simpa using hempty
    rw [hcount] at hsplit
    exact ⟨rfl, hsplit, rfl, rfl, by simp⟩
  · split at h
    · next f hf =>
      obtain rfl := Except.ok.inj h
      have htoken : f.token = some (kind.split token).1 := (Field.parsed_of_parse? hf).token_eq
      refine ⟨rfl, ?_, rfl, rfl, ?_⟩
      · have hcount : f.neverPad.token.getD "" = (kind.split token).1 := by
          rw [Field.neverPad, htoken]
          rfl
        exact (congrArg (· ++ (kind.split token).2) hcount).trans hsplit
      · rintro _ ⟨⟩
        exact ⟨_, f, hf, rfl⟩
    · cases h

/-- A bare run is made alike under another number. -/
theorem ofToken_renumber (h : ofToken id kind token l = .ok s) (id' : Nat) :
    ofToken id' kind token l = .ok { s with id := id' } := by
  unfold ofToken at h ⊢
  dsimp only at h ⊢
  split_ifs at h ⊢
  · obtain rfl := Except.ok.inj h
    rfl
  · split at h
    · obtain rfl := Except.ok.inj h
      rfl
    · cases h

/-- A count that is not changed is written as it was read. -/
theorem OfToken.text_renderCount (h : OfToken kind token l s) (hkind : kind ≠ .multiply) {n : Nat}
    (hn : s.countValue = .ok n) (t : Tolerance) : (s.renderCount t n).text = s.countToken := by
  have hint : countKind kind = .int := by cases kind <;> first | rfl | exact absurd rfl hkind
  unfold countValue at hn
  unfold renderCount countToken
  cases hcount : s.count with
  | none =>
    rw [hcount] at hn
    obtain rfl := Except.ok.inj hn
    rfl
  | some f =>
    obtain ⟨digits, g, hg, rfl⟩ := h.count f hcount
    rw [hint] at hg
    have hparsed := (Field.parsed_of_parse? hg).neverPad
    obtain ⟨m, rfl⟩ := Field.exists_int_of_parse? hg
    have hm : m = n := by
      rw [hcount] at hn
      simp only [Option.bind_some, Field.toInt?, Field.neverPad, Field.signed, SignFlag.apart,
        Bool.or_self, Bool.false_and, if_neg Bool.false_ne_true, Value.toInt?] at hn
      split_ifs at hn with h₁ h₂
      obtain rfl := Except.ok.inj hn
      omega
    subst hm
    have hsame : (Field.neverPad ⟨some digits, some (.int n), some (.int n), .int, none,
        ⟨false, false⟩, false, false⟩).setValue (some (.int n)) = Field.neverPad
          ⟨some digits, some (.int n), some (.int n), .int, none, ⟨false, false⟩, false, false⟩ :=
          rfl
    dsimp only
    rw [hsame, hparsed.isRead.render, Rendered.text_ofText, hparsed.source_eq]
    exact String.append_empty

/-! ## The five kinds -/

/-- A run that has been read has this source. -/
def ReadAs (s : Shorthand) (source : String) : Prop := s.IsRead ∧ s.source = source

/-- A jump is read from its token and the layout behind it. -/
theorem jump_ok (h : jump id token l = .ok s)
    (hletter : ∃ c ∈ token.toList, Lexer.isJumpLetter c = true) :
    s.ReadAs (token ++ layoutText l) := by
  obtain ⟨bare, hbare, h⟩ := exists_of_bind_ok h
  obtain ⟨n, hn, h⟩ := exists_of_bind_ok h
  obtain rfl := Except.ok.inj h
  have ho := ofToken_ok hbare
  have hkind := ho.kind_eq
  constructor
  · refine ⟨by simp [hasLead, hkind], by simp [hkind, ShorthandKind.isInterpolation], ?_,
      by simp [hkind], ?_, by simp [leadCount, hasLead, hkind],
      by simp [hkind, ShorthandKind.isInterpolation]⟩
    · intro _ t
      have hplaces : ({ bare with members := List.replicate n .jump } : Shorthand).places = n := by
        simp [places, leadCount, hasLead, hkind, ShorthandKind.isInterpolation]
      rw [hplaces]
      exact ho.text_renderCount (by decide) hn t
    · intro _
      dsimp only
      rw [ho.letters_eq]
      exact ShorthandKind.letter_split_jump hletter
  · have htoken := ho.token_eq
    simp only [source, leadSource, hasLead, hkind, behindSource, ShorthandKind.isInterpolation,
      ho.endLayout_eq]
    simp only [bne_self_eq_false, Bool.and_false, Bool.false_eq_true, if_false, String.empty_append]
    exact congrArg (· ++ layoutText l) htoken

/-! ### Runs with a lead -/

variable {lead : Lead} {rest : List Field}

/-- The members of a run are those that its lead brings along, and the rest. -/
theorem leadCount_withLead (hkind : s.kind ≠ .jump) :
    (s.withLead lead rest).members.length =
      (s.withLead lead rest).leadCount + rest.length := by
  cases lead <;> simp [withLead, leadCount, hasLead, Lead.members, Lead.isChained, hkind,
    Nat.add_comm]

/-- The lead of a run is written in front of it. -/
theorem leadSource_withLead (hkind : s.kind ≠ .jump) :
    (s.withLead lead rest).leadSource = lead.source := by
  cases lead <;> simp [withLead, leadSource, hasLead, Lead.members, Lead.isChained, hkind,
    fieldSource, Lead.source]

/-- A run is written as its lead, its count and letters, and what stands behind them. -/
theorem source_withLead (hkind : s.kind ≠ .jump) : (s.withLead lead rest).source =
    lead.source ++ (s.countToken ++ s.letters) ++ (s.withLead lead rest).behindSource := by
  rw [source, leadSource_withLead hkind]
  rfl

/-- Unless it is an interpolation, only layout stands behind the letters of a run. -/
theorem behindSource_withLead (hkind : s.kind.isInterpolation = false) :
    (s.withLead lead rest).behindSource = layoutText s.endLayout := by
  simp [behindSource, withLead, hkind]

/-- The first member of a run with a lead is that lead. -/
theorem lead_withLead (hlead : lead.IsRead) (h : (s.withLead lead rest).hasLead = true) :
    ∃ f ∈ (s.withLead lead rest).members.head?, f.IsRead := by
  cases lead with
  | owned f => exact ⟨f, rfl, hlead⟩
  | chained v => simp [withLead, hasLead, Lead.isChained] at h

/-- A repeat with as many members as its count says is read from its lead and its token. -/
theorem OfToken.readAs_copies (h : OfToken .copies token l s) (hlead : lead.IsRead) {n : Nat}
    (hn : s.countValue = .ok n) (hrest : rest.length = n) :
    (s.withLead lead rest).ReadAs (lead.source ++ token ++ layoutText l) := by
  have hkind : s.kind ≠ .jump := by rw [h.kind_eq]; decide
  constructor
  · refine ⟨lead_withLead hlead, by simp [withLead, h.kind_eq, ShorthandKind.isInterpolation], ?_,
      by simp [withLead, h.kind_eq], by simp [withLead, h.kind_eq], by simp [withLead, h.kind_eq],
      by simp [withLead, h.kind_eq, ShorthandKind.isInterpolation]⟩
    intro _ t
    have hplaces : (s.withLead lead rest).places = n := by
      rw [places, leadCount_withLead hkind, hrest]
      simp [withLead, h.kind_eq, ShorthandKind.isInterpolation]
    rw [hplaces]
    exact h.text_renderCount (by decide) hn t
  · have hinter : s.kind.isInterpolation = false := by rw [h.kind_eq]; rfl
    rw [source_withLead hkind, behindSource_withLead hinter, h.token_eq, h.endLayout_eq]

/-- Whatever the lead is, its template is copied, unless it has no value. -/
theorem copies_eq (id : Nat) (lead : Lead) (token : String) (l : Option Layout) :
    copies id lead token l = (do
    let s ← ofToken id .copies token l
    let n ← s.countValue
    if lead.value.isNone then .error (.followsJump "repeat")
    else return s.withLead lead (List.replicate n (lead.template.withLayout .gap))) := by
  rcases lead with f | _ | v <;> rfl

/-- A repeat is the bare run of its token, with the value of its lead repeated. -/
theorem exists_of_copies_ok (h : copies id lead token l = .ok s) : ∃ bare n v,
    ofToken id .copies token l = .ok bare ∧ bare.countValue = .ok n ∧ lead.value = some v ∧
      s = bare.withLead lead (List.replicate n (lead.template.withLayout .gap)) := by
  rw [copies_eq] at h
  obtain ⟨bare, hbare, h⟩ := exists_of_bind_ok h
  obtain ⟨n, hn, h⟩ := exists_of_bind_ok h
  split_ifs at h with hnone
  obtain ⟨v, hv⟩ := Option.ne_none_iff_exists'.mp (Option.isNone_iff_eq_none.not.mp hnone)
  exact ⟨bare, n, v, hbare, hn, hv, (Except.ok.inj h).symm⟩

/-- A repeat is built alike under another number. -/
theorem copies_renumber (h : copies id lead token l = .ok s) (id' : Nat) :
    copies id' lead token l = .ok { s with id := id' } := by
  rw [copies_eq] at h ⊢
  obtain ⟨bare, hbare, h⟩ := exists_of_bind_ok h
  obtain ⟨n, hn, h⟩ := exists_of_bind_ok h
  have hn' : ({ bare with id := id' } : Shorthand).countValue = .ok n := hn
  split_ifs at h with hnone
  obtain rfl := Except.ok.inj h
  exact bind_eq_ok (ofToken_renumber hbare id') (bind_eq_ok hn' (if_neg hnone))

theorem kind_of_copies (h : copies id lead token l = .ok s) : s.kind = .copies := by
  obtain ⟨bare, n, v, hbare, -, -, rfl⟩ := exists_of_copies_ok h
  exact (ofToken_ok hbare).kind_eq

/-- A repeat is read from its lead, its token and the layout behind it. -/
theorem copies_ok (h : copies id lead token l = .ok s) (hlead : lead.IsRead) :
    s.ReadAs (lead.source ++ token ++ layoutText l) := by
  obtain ⟨bare, n, v, hbare, hn, -, rfl⟩ := exists_of_copies_ok h
  exact (ofToken_ok hbare).readAs_copies hlead hn List.length_replicate

/-- A multiplication is the bare run of its token, with the product behind its lead. -/
theorem exists_of_multiply_ok (h : multiply id lead token l = .ok s) : ∃ bare f factor base,
    ofToken id .multiply token l = .ok bare ∧ bare.count = some f ∧ f.toReal? = some factor ∧
      needNumber "multiply" lead.value = .ok base ∧
      s = bare.withLead lead
        [(Field.new (some (.real (base * factor))) lead.kind).withLayout .gap] := by
  obtain ⟨bare, hbare, h⟩ := exists_of_bind_ok h
  split at h
  · cases h
  next factor hfactor =>
  obtain ⟨f, hcount, hf⟩ := Option.bind_eq_some_iff.mp hfactor
  obtain ⟨base, hbase, h⟩ := exists_of_bind_ok h
  exact ⟨bare, f, factor, base, hbare, hcount, hf, hbase, (Except.ok.inj h).symm⟩

/-- A multiplication is built alike under another number. -/
theorem multiply_renumber (h : multiply id lead token l = .ok s) (id' : Nat) :
    multiply id' lead token l = .ok { s with id := id' } := by
  obtain ⟨bare, f, factor, base, hbare, hcount, hf, hbase, rfl⟩ := exists_of_multiply_ok h
  have hfactor : ({ bare with id := id' } : Shorthand).count.bind Field.toReal? = some factor := by
    rw [hcount, Option.bind_some, hf]
  refine bind_eq_ok (ofToken_renumber hbare id') ?_
  rw [hfactor]
  exact bind_eq_ok hbase rfl

theorem kind_of_multiply (h : multiply id lead token l = .ok s) : s.kind = .multiply := by
  obtain ⟨bare, f, factor, base, hbare, -, -, -, rfl⟩ := exists_of_multiply_ok h
  exact (ofToken_ok hbare).kind_eq

/-- A multiplication is read from its lead, its token and the layout behind it. -/
theorem multiply_ok (h : multiply id lead token l = .ok s) (hlead : lead.IsRead) :
    s.ReadAs (lead.source ++ token ++ layoutText l) := by
  obtain ⟨bare, f, factor, base, hbare, hcount, -, -, rfl⟩ := exists_of_multiply_ok h
  have ho := ofToken_ok hbare
  have hkind : bare.kind ≠ .jump := by rw [ho.kind_eq]; decide
  constructor
  · refine ⟨lead_withLead hlead, by simp [withLead, ho.kind_eq, ShorthandKind.isInterpolation],
      by simp [withLead, ho.kind_eq], ?_, by simp [withLead, ho.kind_eq],
      by simp [withLead, ho.kind_eq],
      by simp [withLead, ho.kind_eq, ShorthandKind.isInterpolation]⟩
    intro _
    obtain ⟨digits, g, hg, rfl⟩ := ho.count f hcount
    have hreal : g.kind = .real := Field.kind_of_parse? hg
    exact ⟨g.neverPad, digits, hcount, hreal,
      (Field.parsed_of_parse? hg).neverPad⟩
  · have hinter : bare.kind.isInterpolation = false := by rw [ho.kind_eq]; rfl
    rw [source_withLead hkind, behindSource_withLead hinter, ho.token_eq, ho.endLayout_eq]

/-- An interpolation with as many steps as its count says is read from its bounds and its token. -/
theorem OfToken.readAs_interpolation {l mid : Option Layout} {last : Field} {spacing : Option Float}
    {steps : List Field} (h : OfToken kind token l s) (hinter : kind.isInterpolation = true)
    (hlead : lead.IsRead) (hlast : last.IsRead) {n : Nat} (hn : s.countValue = .ok n)
    (hsteps : steps.length = n) :
    ({ s.withLead lead (steps ++ [last]) with midLayout := mid, spacing } : Shorthand).ReadAs
      (lead.source ++ token ++ (layoutText mid ++ last.source)) := by
  have hne {k : ShorthandKind} (hk : k.isInterpolation = false) : kind ≠ k := by
    rintro rfl
    rw [hk] at hinter
    cases hinter
  have hkind : s.kind ≠ .jump := by rw [h.kind_eq]; exact hne rfl
  have hlastOf : (lead.members ++ (steps ++ [last])).getLast? = some last := by
    rw [← List.append_assoc, List.getLast?_concat]
  constructor
  · refine ⟨lead_withLead hlead, fun _ ↦ ⟨last, hlastOf, hlast⟩, ?_,
      fun hk ↦ absurd (h.kind_eq.symm.trans hk) (hne rfl), fun hk ↦ absurd hk hkind,
      fun hk ↦ absurd hk hkind, ?_⟩
    · intro _ t
      have hplaces : (s.withLead lead (steps ++ [last])).places = n := by
        have hk : (s.withLead lead (steps ++ [last])).kind.isInterpolation = true := by
          rw [← h.kind_eq] at hinter
          exact hinter
        rw [places, leadCount_withLead hkind, hk, List.length_append, hsteps,
          List.length_singleton, if_pos rfl]
        omega
      exact (congrArg (fun k ↦ (s.renderCount t k).text) hplaces).trans
        (h.text_renderCount (hne rfl) hn t)
    · intro _
      have hcount : (s.withLead lead (steps ++ [last])).members.length =
          (s.withLead lead (steps ++ [last])).leadCount + (steps ++ [last]).length :=
        leadCount_withLead hkind
      rw [List.length_append, List.length_singleton] at hcount
      change (s.withLead lead (steps ++ [last])).leadCount <
        (s.withLead lead (steps ++ [last])).members.length
      omega
  · have hlead' : (s.withLead lead (steps ++ [last])).leadSource = lead.source :=
      leadSource_withLead hkind
    have hbehind : ({ s.withLead lead (steps ++ [last]) with midLayout := mid, spacing } :
        Shorthand).behindSource = layoutText mid ++ last.source := by
      simp only [behindSource, withLead, h.kind_eq, hinter, if_true, hlastOf]
      rfl
    rw [source, hbehind]
    exact congrArg₂ (fun a b ↦ a ++ b ++ (layoutText mid ++ last.source)) hlead' h.token_eq

/-- The members between the bounds are computed numbers, as many as the count says. -/
theorem exists_of_interpolate_ok {mid : Option Layout} {last : Field}
    (h : interpolate id kind lead token mid last = .ok s) : ∃ bare first finish, ∃ points :
    List Float, ∃ spacing,
      ofToken id kind token none = .ok bare ∧ bare.countValue = .ok points.length ∧
      needNumber "interpolate" lead.value = .ok first ∧ last.toReal? = some finish ∧
      s =
      { bare.withLead lead
        ((points.map fun x ↦ (Field.new (some (.real x)) lead.kind).withLayout .gap) ++ [last])
        with midLayout := mid, spacing } := by
  obtain ⟨bare, hbare, h⟩ := exists_of_bind_ok h
  obtain ⟨n, hn, h⟩ := exists_of_bind_ok h
  obtain ⟨first, hfirst, h⟩ := exists_of_bind_ok h
  split at h
  · cases h
  next finish hfinish =>
  split_ifs at h
  let spacing := (onScale kind finish - onScale kind first) / (Float.ofNat n + 1.0)
  refine ⟨bare, first, finish, (List.range n).map fun i ↦
    offScale kind (onScale kind first + spacing * Float.ofNat (i + 1)), some spacing,
      hbare, ?_, hfirst, hfinish, ?_⟩
  · rw [List.length_map, List.length_range, hn]
  · rw [List.map_map]
    exact (Except.ok.inj h).symm

/-- An interpolation is read from its lead, its token, the layout in its middle and its last bound.
-/
theorem interpolate_ok {mid : Option Layout} {last : Field} (hinter : kind.isInterpolation = true)
    (h : interpolate id kind lead token mid last = .ok s) (hlead : lead.IsRead)
    (hlast : last.IsRead) :
    s.ReadAs (lead.source ++ token ++ (layoutText mid ++ last.source)) := by
  obtain ⟨bare, first, finish, points, spacing, hbare, hn, -, -, rfl⟩ := exists_of_interpolate_ok h
  exact (ofToken_ok hbare).readAs_interpolation hinter hlead hlast hn (List.length_map _)

end Shorthand

end TransportDeck
