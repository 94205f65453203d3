import TransportDeck.Decimal.Read
import TransportDeck.Diagnostics.Event
import TransportDeck.Number.Tolerance
import TransportDeck.Text.Blank

/-!
# Preferences

What a user sets through the environment. A variable that is missing or does not read as its kind
leaves the default.
-/

namespace TransportDeck

structure Preferences where
  tolerance : Tolerance
  version : String
  replaceNonAscii : Bool
  check : Bool
  failFast : Bool
  structuredLog : Bool
  consoleLog : Bool
  level : Level

namespace Preferences

def readBool? (text : String) : Option Bool :=
  if text == "true" then some true else if text == "false" then some false else none

def readLevel? (text : String) : Option Level :=
  let word := Text.lowerString text
  if word == "error" || word == "0" then some .error
  else if word == "warning" || word == "warn" || word == "1" then some .warning
  else if word == "info" || word == "2" then some .info
  else if word == "debug" || word == "3" then some .debug
  else none

/-- The variables that are looked at. -/
def names : List String := [
  "MCNP_REL_TOL", "MCNP_ABS_TOL", "MCNP_FORMAT_VERSION", "MCNP_REPLACE_NON_ASCII",
  "MCNP_CHECK_MODE", "MCNP_FAIL_FAST", "MCNP_STRUCTURED_LOGGING", "MCNP_CONSOLE_LOGGING",
  "MCNP_LOG_LEVEL"]

def ofEnvironment (env : String → Option String) : Preferences :=
  let float (name : String) (default : Float) : Float :=
    ((env name).bind fun t => Decimal.read? t.toList).getD default
  let flag (name : String) (default : Bool) : Bool := ((env name).bind readBool?).getD default
  { tolerance :=
      ⟨float "MCNP_REL_TOL" Tolerance.standard.rel, float "MCNP_ABS_TOL" Tolerance.standard.abs⟩
    version := (env "MCNP_FORMAT_VERSION").getD "6.3.0"
    replaceNonAscii := flag "MCNP_REPLACE_NON_ASCII" true
    check := flag "MCNP_CHECK_MODE" false
    failFast := flag "MCNP_FAIL_FAST" false
    structuredLog := flag "MCNP_STRUCTURED_LOGGING" false
    consoleLog := flag "MCNP_CONSOLE_LOGGING" true
    level := ((env "MCNP_LOG_LEVEL").bind readLevel?).getD .warning }

end Preferences

end TransportDeck
