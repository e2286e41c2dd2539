import ScriptLang.Text.CaseTables

/-!
# Upper and lower case

Case mapping of whole texts. Characters are mapped one by one, except that a
capital sigma becomes the final form at the end of a word: after a letter with
case and before none, apart from characters that are passed over.
-/

namespace ScriptLang.Text

/-- The code point is in one of the runs. -/
def inRuns (runs : List (Nat × Nat)) (n : Nat) : Bool :=
  runs.any fun r => r.1 ≤ n && n ≤ r.2

namespace CaseRun

/-- The run maps the code point. -/
def covers (r : CaseRun) (n : Nat) : Bool :=
  r.first ≤ n && n ≤ r.last && (n - r.first) % r.step == 0

end CaseRun

/-- The characters that `c` is mapped to. What no table lists stays as it is. -/
def mapped (runs : List CaseRun) (expansions : List (Nat × List Nat)) (c : Char) : List Char :=
  let n := c.toNat
  match expansions.lookup n with
  | some ns => ns.map Char.ofNat
  | none =>
    match runs.find? fun r => r.covers n with
    | some r => [Char.ofNat ((n : Int) + r.distance).toNat]
    | none => [c]

/-- The uppercase of a character. Unaccented Latin letters need no table. -/
def upperChar (c : Char) : List Char :=
  if c.toNat < 0x80 then [c.toUpper] else mapped upperRuns upperExpansions c

/-- The lowercase of a character, wherever it stands. -/
def lowerChar (c : Char) : List Char :=
  if c.toNat < 0x80 then [c.toLower] else mapped lowerRuns lowerExpansions c

/-- The first character that is not passed over has case. -/
def meetsCased (cs : List Char) : Bool :=
  match cs.dropWhile fun c => inRuns ignorableRuns c.toNat with
  | [] => false
  | c :: _ => inRuns casedRuns c.toNat

/-- Capital sigma. -/
def capitalSigma : Char := 'Σ'

/-- The lowercase of a text whose part before it, in reverse, is `before`. -/
def lowerFrom (before : List Char) : List Char → List Char
  | [] => []
  | c :: rest =>
    let here :=
      if c == capitalSigma then [if meetsCased before && !meetsCased rest then 'ς' else 'σ']
      else lowerChar c
    here ++ lowerFrom (c :: before) rest

/-- The text in uppercase. -/
def upper (source : String) : String := String.ofList (source.toList.flatMap upperChar)

/-- The text in lowercase. -/
def lower (source : String) : String := String.ofList (lowerFrom [] source.toList)

end ScriptLang.Text
