import TransportDeck.Text.Blank

/-!
# Vocabulary

The words and symbols with a fixed meaning in a deck, in any letter case.
-/

namespace TransportDeck.Vocabulary

open Text

def keywords : List String := [
  "read", "noecho", "file", "decode", "encode", "like", "but", "imp", "vol", "pwt", "ext",
  "fcl", "wwn", "dxc", "nonu", "pd", "tmp", "u", "trcl", "lat", "fill", "elpt", "cosy",
  "bflcl", "unc", "gas", "estep", "hstep", "nlib", "plib", "pnlib", "elib", "hlib", "alib",
  "slib", "tlib", "dlib", "cond", "refi", "refc", "refs", "no", "cel", "sur", "erg", "tme",
  "dir", "vec", "nrm", "pos", "rad", "axs", "x", "y", "z", "ccc", "ara", "wgt", "tr", "eff",
  "par", "dat", "loc", "bem", "bap"]

def surfaceTypes : List String := [
  "p", "px", "py", "pz", "so", "s", "sx", "sy", "sz", "c/x", "c/y", "c/z", "cx", "cy", "cz",
  "k/x", "k/y", "k/z", "kx", "ky", "kz", "sq", "gq", "tx", "ty", "tz", "x", "y", "z", "box",
  "rpp", "sph", "rcc", "rhp", "hex", "rec", "trc", "ell", "wed", "arb"]

/-- Particle designators, in upper case, and the names of what they designate. -/
def particles : List (Char × String) := [
  ('N', "neutron"), ('P', "photon"), ('E', "electron"), ('|', "negative muon"),
  ('Q', "anti neutron"), ('U', "electron neutrino"), ('V', "muon neutrino"), ('F', "positron"),
  ('H', "proton"), ('L', "lambda baryon"), ('+', "positive sigma baryon"),
  ('-', "negative sigma baryon"), ('X', "cascade"), ('Y', "negative cascade"),
  ('O', "omega baryon"), ('!', "positive muon"), ('<', "anti electron neutrino"),
  ('>', "anti muon neutrino"), ('G', "anti proton"), ('/', "positive pion"),
  ('Z', "neutral pion"), ('K', "positive kaon"), ('%', "kaon short"), ('^', "kaon long"),
  ('B', "anti lambda baryon"), ('_', "anti positive sigma baryon"),
  ('~', "anti negative sigma baryon"), ('C', "anti cascade"), ('W', "positive cascade"),
  ('@', "anti omega"), ('D', "deuteron"), ('T', "triton"), ('S', "helion"),
  ('A', "alpha particle"), ('*', "negative pion"), ('?', "negative kaon"), ('#', "heavy ion")]

/-- The data records that have a grammar of their own. -/
def modeledData : List String :=
  ["m", "mt", "mx", "imp", "vol", "tr", "u", "fill", "lat", "mode", "tmp"]

def isKeyword (word : String) : Bool := keywords.any (sameWord · word)

def isSurfaceType (word : String) : Bool := surfaceTypes.any (sameWord · word)

def isModeledData (name : String) : Bool := modeledData.any (sameWord · name)

def particleName? (symbol : Char) : Option String :=
  (particles.find? fun p => p.1 == symbol.toUpper).map (·.2)

def isParticle (symbol : Char) : Bool := (particleName? symbol).isSome

end TransportDeck.Vocabulary
