/-!
# Text in bytes

Decoding of bytes as UTF-8. What is not part of a character is told apart by how long the
ill-formed stretch is, so that it can be reported or replaced.
-/

namespace TransportDeck.Files

/-- One step through bytes: a character, an ill-formed stretch of some length, or a character
that the end of the bytes cuts off. -/
inductive Decoded where
  | char (c : Char) (size : Nat)
  | invalid (size : Nat)
  | cut
deriving Repr, DecidableEq

def isContinuation (b : Nat) : Bool := 0x80 ≤ b && b ≤ 0xBF

/-- Whether a second byte can follow a first one of a longer character. -/
def secondFits (b₁ b₂ : Nat) : Bool :=
  if b₁ == 0xE0 then 0xA0 ≤ b₂ && b₂ ≤ 0xBF
  else if b₁ == 0xED then 0x80 ≤ b₂ && b₂ ≤ 0x9F
  else if b₁ == 0xF0 then 0x90 ≤ b₂ && b₂ ≤ 0xBF
  else if b₁ == 0xF4 then 0x80 ≤ b₂ && b₂ ≤ 0x8F
  else isContinuation b₂

def decodeTwo (b₁ : Nat) : List Nat → Decoded
  | [] => .cut
  | b₂ :: _ =>
    if isContinuation b₂ then .char (Char.ofNat (b₁ % 32 * 64 + b₂ % 64)) 2 else .invalid 1

def decodeThree (b₁ : Nat) : List Nat → Decoded
  | [] => .cut
  | b₂ :: rest =>
    if !secondFits b₁ b₂ then .invalid 1
    else match rest with
      | [] => .cut
      | b₃ :: _ =>
        if isContinuation b₃ then
          .char (Char.ofNat (b₁ % 16 * 4096 + b₂ % 64 * 64 + b₃ % 64)) 3
        else .invalid 2

def decodeFour (b₁ : Nat) : List Nat → Decoded
  | [] => .cut
  | b₂ :: rest =>
    if !secondFits b₁ b₂ then .invalid 1
    else match rest with
      | [] => .cut
      | b₃ :: rest =>
        if !isContinuation b₃ then .invalid 2
        else match rest with
          | [] => .cut
          | b₄ :: _ =>
            if isContinuation b₄ then
              .char (Char.ofNat (b₁ % 8 * 262144 + b₂ % 64 * 4096 + b₃ % 64 * 64 + b₄ % 64)) 4
            else .invalid 3

def decodeStep (b₁ : Nat) (rest : List Nat) : Decoded :=
  if b₁ < 0x80 then .char (Char.ofNat b₁) 1
  else if 0xC2 ≤ b₁ && b₁ ≤ 0xDF then decodeTwo b₁ rest
  else if 0xE0 ≤ b₁ && b₁ ≤ 0xEF then decodeThree b₁ rest
  else if 0xF0 ≤ b₁ && b₁ ≤ 0xF4 then decodeFour b₁ rest
  else .invalid 1

/-- Where and how bytes stop being text; without a length, the end of the bytes cuts a
character off. -/
structure Malformed where
  index : Nat
  size : Option Nat
deriving Repr, DecidableEq

def Malformed.message (m : Malformed) : String :=
  match m.size with
  | some n =>
    "invalid utf-8 sequence of " ++ toString n ++ " bytes from index " ++ toString m.index
  | none => "incomplete utf-8 byte sequence from index " ++ toString m.index

/-- The characters of well-formed bytes; `index` bytes stand before them. -/
def decodeFrom (index : Nat) : List Nat → Except Malformed (List Char)
  | [] => .ok []
  | b :: bs =>
    match decodeStep b bs with
    | .char c n => (decodeFrom (index + n) (bs.drop (n - 1))).map (c :: ·)
    | .invalid n => .error ⟨index, some n⟩
    | .cut => .error ⟨index, none⟩
termination_by bs => bs.length
decreasing_by simp only [List.length_drop, List.length_cons]; omega

def decode (bs : List Nat) : Except Malformed (List Char) := decodeFrom 0 bs

/-- The characters of any bytes, each ill-formed stretch replaced by one mark. -/
def decodeLossy : List Nat → List Char
  | [] => []
  | b :: bs =>
    match decodeStep b bs with
    | .char c n => c :: decodeLossy (bs.drop (n - 1))
    | .invalid n => '\ufffd' :: decodeLossy (bs.drop (n - 1))
    | .cut => ['\ufffd']
termination_by bs => bs.length
decreasing_by all_goals simp only [List.length_drop, List.length_cons]; omega

end TransportDeck.Files
