/-!
# Diagnostic codes

Every error, warning and success has a code. The register says of a code how severe it is, whether
work can go on, and what to do about it; a code that is not in it gets the neutral answers.
-/

namespace TransportDeck

structure Code where
  text : String
deriving Repr, DecidableEq, Inhabited

inductive Severity where
  | critical
  | high
  | medium
  | low
deriving Repr, DecidableEq

def Severity.text : Severity → String
  | .critical => "Critical"
  | .high => "High"
  | .medium => "Medium"
  | .low => "Low"

namespace Code

def internalError : Code := ⟨"ERR001"⟩
def startFailed : Code := ⟨"ERR002"⟩
def fileNotFound : Code := ⟨"E005"⟩
def includeTooDeep : Code := ⟨"E006"⟩
def fileTooLarge : Code := ⟨"E007"⟩
def emptyFile : Code := ⟨"E008"⟩
def permissionDenied : Code := ⟨"E009"⟩
def invalidEncoding : Code := ⟨"E010"⟩
def transferFailed : Code := ⟨"E011"⟩
def unsupportedLayout : Code := ⟨"E012"⟩
def invalidCharacter : Code := ⟨"E020"⟩
def invalidNumber : Code := ⟨"E021"⟩
def tokenTooLong : Code := ⟨"E022"⟩
def tooManyTokens : Code := ⟨"E023"⟩
def unexpectedEnd : Code := ⟨"E040"⟩
def emptyRecord : Code := ⟨"E041"⟩
def grammarViolation : Code := ⟨"E043"⟩
def unexpectedToken : Code := ⟨"E050"⟩
def duplicateParameter : Code := ⟨"E051"⟩
def unsupportedFeature : Code := ⟨"E052"⟩
def malformedShorthand : Code := ⟨"E053"⟩
def wrongBlock : Code := ⟨"E054"⟩
def nestedTooDeep : Code := ⟨"E087"⟩
def incomparable : Code := ⟨"E060"⟩
def illegalGeometry : Code := ⟨"E061"⟩
def unknownEntry : Code := ⟨"E062"⟩
def unsupportedVersion : Code := ⟨"E070"⟩
def unwritable : Code := ⟨"E071"⟩
def lineExpansion : Code := ⟨"W010"⟩
def lineOverrun : Code := ⟨"W011"⟩
def extraBlocks : Code := ⟨"W012"⟩
def downgradedError : Code := ⟨"W013"⟩
def replacedCharacter : Code := ⟨"W014"⟩
def keptVerbatim : Code := ⟨"W015"⟩
def completed : Code := ⟨"I001"⟩
def started : Code := ⟨"I004"⟩
def fileRead : Code := ⟨"I006"⟩
def tokenized : Code := ⟨"I020"⟩
def recordParsed : Code := ⟨"I040"⟩
def blocksRead : Code := ⟨"I050"⟩
def outputWritten : Code := ⟨"I060"⟩

/-- Codes of events that no register entry describes. -/
def plainWarning : Code := ⟨"W000"⟩

def plainInfo : Code := ⟨"I000"⟩

def plainDebug : Code := ⟨"D000"⟩

/-- What the register says of a code. -/
structure Info where
  code : Code
  category : String
  severity : Severity
  recoverable : Bool
  halts : Bool
  description : String
  action : String
deriving Repr, DecidableEq

def register : List Info := [
  ⟨internalError, "System", .critical, false, true,
    "Critical internal error",
    "File a bug report with the input that triggered it"⟩,
  ⟨startFailed, "System", .critical, false, true,
    "System initialization failure",
    "Check build profile and environment configuration"⟩,
  ⟨fileNotFound, "FileProcessing", .high, false, true,
    "Input or included file not found",
    "Check the file path; READ paths are relative to the root input"⟩,
  ⟨includeTooDeep, "FileProcessing", .high, false, true,
    "READ inclusion nested too deeply",
    "Check for files that include each other"⟩,
  ⟨fileTooLarge, "FileProcessing", .medium, false, true,
    "File exceeds maximum size limit",
    "Split the input with READ directives or raise the build limit"⟩,
  ⟨emptyFile, "FileProcessing", .medium, false, true,
    "Input file is empty",
    "Provide an input with at least a title line"⟩,
  ⟨permissionDenied, "FileProcessing", .medium, false, true,
    "Permission denied accessing file",
    "Check file permissions and user access rights"⟩,
  ⟨invalidEncoding, "FileProcessing", .medium, false, true,
    "File is not valid UTF-8 text",
    "Convert the input to ASCII or UTF-8"⟩,
  ⟨transferFailed, "FileProcessing", .high, false, true,
    "I/O error while reading input",
    "Retry the operation or check the storage device"⟩,
  ⟨unsupportedLayout, "FileProcessing", .high, false, true,
    "Input layout is recognised but not supported",
    "Rewrite the input in horizontal (column) format"⟩,
  ⟨invalidCharacter, "Lexical", .medium, true, false,
    "Character cannot start any token",
    "Remove or quote the character"⟩,
  ⟨invalidNumber, "Lexical", .medium, true, false,
    "Malformed numeric literal",
    "Check the mantissa and exponent of the number"⟩,
  ⟨tokenTooLong, "Lexical", .medium, true, false,
    "Token exceeds maximum length",
    "Shorten the word or number"⟩,
  ⟨tooManyTokens, "Lexical", .high, false, true,
    "Record produced too many tokens",
    "Split the record or raise the build limit"⟩,
  ⟨unexpectedEnd, "Syntax", .medium, true, false,
    "Record ended before a complete phrase was read",
    "Complete the record or check continuation lines"⟩,
  ⟨emptyRecord, "Syntax", .low, true, false,
    "Record contains no tokens",
    "Remove the empty record"⟩,
  ⟨grammarViolation, "Syntax", .medium, true, false,
    "Record does not follow the grammar for its block",
    "Check the record against the input format for its block"⟩,
  ⟨unexpectedToken, "Syntax", .medium, true, false,
    "Token not expected here",
    "Check the highlighted token and the one before it"⟩,
  ⟨duplicateParameter, "Syntax", .medium, true, false,
    "Parameter specified more than once",
    "Remove the duplicate keyword"⟩,
  ⟨unsupportedFeature, "Syntax", .high, false, true,
    "Feature recognised but not supported",
    "Rewrite the record without the unsupported syntax"⟩,
  ⟨malformedShorthand, "Syntax", .medium, true, false,
    "Shorthand cannot be applied at this position",
    "Give the shorthand an explicit value to work from"⟩,
  ⟨wrongBlock, "Syntax", .medium, true, false,
    "Record prefix does not match the expected record kind",
    "Move the record to the correct block"⟩,
  ⟨nestedTooDeep, "Syntax", .high, false, true,
    "Maximum parse depth exceeded",
    "Reduce geometry nesting"⟩,
  ⟨incomparable, "Geometry", .medium, true, false,
    "Half-space nodes of different kinds compared",
    "Compare trees with trees and units with units"⟩,
  ⟨illegalGeometry, "Geometry", .high, false, true,
    "Half-space tree is in an illegal state",
    "Rebuild the tree from its geometry syntax"⟩,
  ⟨unknownEntry, "Geometry", .high, false, true,
    "Node index does not belong to this arena",
    "Use ids returned by the same arena"⟩,
  ⟨unsupportedVersion, "Formatting", .high, false, true,
    "Format version is not supported",
    "Use one of the listed format versions"⟩,
  ⟨unwritable, "Formatting", .medium, true, false,
    "Value cannot be formatted in this position",
    "Check the value type"⟩,
  ⟨lineExpansion, "Formatting", .low, true, false,
    "Reformatted value is wider than its original column",
    "Review the affected line for alignment"⟩,
  ⟨lineOverrun, "FileProcessing", .low, true, false,
    "Line exceeds the column limit and was truncated",
    "Wrap the line with a continuation"⟩,
  ⟨extraBlocks, "FileProcessing", .low, true, false,
    "Content after the data block was ignored",
    "Remove the trailing content or the extra blank line"⟩,
  ⟨downgradedError, "Syntax", .low, true, false,
    "Record error downgraded to a warning in check mode",
    "Fix the record before running without check mode"⟩,
  ⟨replacedCharacter, "FileProcessing", .low, true, false,
    "Non-ASCII character replaced with a space",
    "Remove the character from the input"⟩,
  ⟨keptVerbatim, "Syntax", .low, true, false,
    "Unmodeled data record kept verbatim",
    "No action needed"⟩]

def info? (c : Code) : Option Info := register.find? (·.code == c)

def severity (c : Code) : Severity := (c.info?.map (·.severity)).getD .medium

def category (c : Code) : String := (c.info?.map (·.category)).getD "Unknown"

def isRecoverable (c : Code) : Bool := (c.info?.map (·.recoverable)).getD true

def halts (c : Code) : Bool := (c.info?.map (·.halts)).getD false

def unknownDescription : String := "Unknown error"

def description (c : Code) : String := (c.info?.map (·.description)).getD unknownDescription

def noAction : String := "No specific action available"

def action (c : Code) : String := (c.info?.map (·.action)).getD noAction

end Code

end TransportDeck
