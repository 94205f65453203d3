import TransportDeck.Node.Shorthand
import TransportDeck.Token.Lexer

/-!
# Why a record cannot be read
-/

namespace TransportDeck

inductive SyntaxError where
  | unexpectedToken (expected found : String) (span : Span)
  | unexpectedEnd (expected : String) (span : Span)
  | emptyRecord
  | violation (message : String) (span : Span)
  | duplicateParameter (key : String) (span : Span)
  | unsupported (feature : String) (span : Span)
  | malformedShorthand (reason : ShorthandError) (span : Span)
  | wrongBlock (block message : String) (span : Span)
  | nestedTooDeep (span : Span)
  | lexical (error : LexError)
deriving Repr

namespace SyntaxError

def message : SyntaxError → String
  | unexpectedToken expected found span =>
    "Unexpected token: expected " ++ expected ++ ", found '" ++ found ++ "' at " ++ span.text
  | unexpectedEnd expected _ => "Unexpected end of record: expected " ++ expected
  | emptyRecord => "Record holds no data"
  | violation message span => "Grammar violation: " ++ message ++ " at " ++ span.text
  | duplicateParameter key span =>
    "Parameter '" ++ key ++ "' is given more than once at " ++ span.text
  | unsupported feature span => "Unsupported feature: " ++ feature ++ " at " ++ span.text
  | malformedShorthand reason span =>
    "Malformed shortcut: " ++ reason.message ++ " at " ++ span.text
  | wrongBlock block message span =>
    "Record does not belong in the " ++ block ++ " block: " ++ message ++ " at " ++ span.text
  | nestedTooDeep span => "Maximum nesting depth exceeded at " ++ span.text
  | lexical error => error.message

def code : SyntaxError → Code
  | unexpectedToken .. => .unexpectedToken
  | unexpectedEnd .. => .unexpectedEnd
  | emptyRecord => .emptyRecord
  | violation .. => .grammarViolation
  | duplicateParameter .. => .duplicateParameter
  | unsupported .. => .unsupportedFeature
  | malformedShorthand .. => .malformedShorthand
  | wrongBlock .. => .wrongBlock
  | nestedTooDeep _ => .nestedTooDeep
  | lexical error => error.code

def span? : SyntaxError → Option Span
  | unexpectedToken _ _ span | unexpectedEnd _ span | violation _ span
  | duplicateParameter _ span | unsupported _ span | malformedShorthand _ span
  | wrongBlock _ _ span | nestedTooDeep span => some span
  | emptyRecord => none
  | lexical error => error.span?

/-- Such an error always stops the work. -/
def isUnsupported : SyntaxError → Bool
  | unsupported .. => true
  | _ => false

end SyntaxError

end TransportDeck
