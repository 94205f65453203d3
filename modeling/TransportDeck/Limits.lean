/-!
# Limits

The bounds of a build: how much the reader, the lexer, the parser, the writer and the log accept.
-/

namespace TransportDeck.Limits

/-- Bytes in one input file. -/
def fileSize : Nat := 52428800

/-- Files that include one another. -/
def includeDepth : Nat := 16

/-- Leading blank columns that make a line continue the one before it. -/
def continuationColumns : Nat := 5

def tabWidth : Nat := 8

def blocks : Nat := 3

def tokens : Nat := 1000000

/-- Bytes in one token that is not layout. -/
def tokenBytes : Nat := 4096

def parseDepth : Nat := 200

/-- Errors kept for one record; older ones give way. -/
def keptErrors : Nat := 50

/-- Values that one shorthand may stand for. -/
def shorthandCount : Nat := 100000

/-- Digits after the point where a written number shows none to copy. -/
def decimalPlaces : Nat := 5

/-- Blanks in front of a line that the writer adds. -/
def writtenIndent : Nat := 5

/-- Events collected over all files. -/
def collectedEvents : Nat := 1000

def bufferedEvents : Nat := 10000

/-- Bytes in one context value of an event. -/
def contextBytes : Nat := 4096

def eventsPerFile : Nat := 1000

/-- Where the limits were taken from. -/
def description : String := "Generated from config/development.toml"

end TransportDeck.Limits
