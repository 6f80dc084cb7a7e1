import QuadDsp.Text.Numeral

/-! # JSON values

The data format of programs, configurations and reports. An object keeps its fields in the order in
which they were written, repeated names included; who reads it decides about those. Numbers are
integers, or `real` with the text they were written as. What a text holds in good form but without
a value of its own here is `unread`. `Json.compact` writes a value on one line and
`Json.pretty` on indented lines. -/

namespace QuadDsp

inductive Json
  | null
  | bool (b : Bool)
  | int (i : Int)
  | real (text : String)
  | str (s : String)
  | arr (items : List Json)
  | obj (fields : List (String × Json))
  /-- well-formed text of which no value is kept: it nests too deep, or holds half of a surrogate
  pair; it can only be passed over -/
  | unread
deriving Inhabited

namespace Json

/-- A character inside a quoted string. -/
def escapeChar (c : Char) : String :=
  if c = '"' then "\\\""
  else if c = '\\' then "\\\\"
  else if c = '\n' then "\\n"
  else if c = '\r' then "\\r"
  else if c = '\t' then "\\t"
  else if c.toNat = 8 then "\\b"
  else if c.toNat = 12 then "\\f"
  else if c.toNat < 32 then
    "\\u00" ++ String.ofList [Text.digitChar (c.toNat / 16), Text.digitChar (c.toNat % 16)]
  else String.singleton c

def quoteOnto (acc s : String) : String :=
  (s.toList.foldl (fun acc c => acc ++ escapeChar c) (acc ++ "\"")) ++ "\""

def quote (s : String) : String := quoteOnto "" s

mutual

def compactOnto (acc : String) : Json → String
  | null => acc ++ "null"
  | bool b => acc ++ (if b then "true" else "false")
  | int i => acc ++ Text.decimalInt i
  | real text => acc ++ text
  | str s => quoteOnto acc s
  | unread => acc ++ "null"
  | arr [] => acc ++ "[]"
  | arr (v :: rest) => compactItems (compactOnto (acc ++ "[") v) rest ++ "]"
  | obj [] => acc ++ "\x7b\x7d"
  | obj ((k, v) :: rest) =>
    compactFields (compactOnto (quoteOnto (acc ++ "\x7b") k ++ ":") v) rest ++ "\x7d"

def compactItems (acc : String) : List Json → String
  | [] => acc
  | v :: rest => compactItems (compactOnto (acc ++ ",") v) rest

def compactFields (acc : String) : List (String × Json) → String
  | [] => acc
  | (k, v) :: rest => compactFields (compactOnto (quoteOnto (acc ++ ",") k ++ ":") v) rest

end

def compact (j : Json) : String := compactOnto "" j

/-- A new line with two blanks for each level. -/
def newLine (level : Nat) : String := "\n" ++ String.ofList (List.replicate (2 * level) ' ')

mutual

def prettyOnto (level : Nat) (acc : String) : Json → String
  | arr [] => acc ++ "[]"
  | arr (v :: rest) =>
    prettyItems (level + 1) (prettyOnto (level + 1) (acc ++ "[" ++ newLine (level + 1)) v) rest ++
      newLine level ++ "]"
  | obj [] => acc ++ "\x7b\x7d"
  | obj ((k, v) :: rest) =>
    prettyFields (level + 1)
      (prettyOnto (level + 1) (quoteOnto (acc ++ "\x7b" ++ newLine (level + 1)) k ++ ": ") v)
      rest ++ newLine level ++ "\x7d"
  | null => acc ++ "null"
  | bool b => acc ++ (if b then "true" else "false")
  | int i => acc ++ Text.decimalInt i
  | real text => acc ++ text
  | str s => quoteOnto acc s
  | unread => acc ++ "null"

def prettyItems (level : Nat) (acc : String) : List Json → String
  | [] => acc
  | v :: rest => prettyItems level (prettyOnto level (acc ++ "," ++ newLine level) v) rest

def prettyFields (level : Nat) (acc : String) : List (String × Json) → String
  | [] => acc
  | (k, v) :: rest =>
    prettyFields level
      (prettyOnto level (quoteOnto (acc ++ "," ++ newLine level) k ++ ": ") v) rest

end

def pretty (j : Json) : String := prettyOnto 0 "" j

end Json

end QuadDsp
