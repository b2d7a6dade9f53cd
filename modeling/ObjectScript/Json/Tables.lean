import Mathlib.Data.List.Basic
/-!
# The tables of the json parser

Characters are mapped to classes (`asciiClass`), and a state and a class to the next state or to an action
(`stateTransitionTable`).

Both are copied from the source entry by entry.  What the proofs need of them is checked over all of them by `decide`:
from where strings are entered and left, and which states a container may end in.
-/
namespace ObjectScript
namespace Json

/-- `enum classes` -/
inductive CharClass where
  | space | white | lcurb | rcurb | lsqrb | rsqrb | colon | comma | quote | backs | slash | plus | minus | point | zero | digit
  | lowA | lowB | lowC | lowD | lowE | lowF | lowL | lowN | lowR | lowS | lowT | lowU | abcdf | e | etc
deriving DecidableEq, Repr

/-- `enum states` -/
inductive State where
  | go | ok | ob | ke | co | va | ar | st | es | u1 | u2 | u3 | u4 | mi | ze | int | fr | e1 | e2 | e3
  | t1 | t2 | t3 | f1 | f2 | f3 | f4 | n1 | n2 | n3
deriving DecidableEq, Repr

/-- `enum modes` -/
inductive Mode where
  | array | done | key | object
deriving DecidableEq, Repr

/-- The negative entries of the table, but for the error code. -/
inductive Action where
  /-- -9 -/
  | emptyObject
  /-- -8 -/
  | closeObject
  /-- -7 -/
  | closeArray
  /-- -6 -/
  | openObject
  /-- -5 -/
  | openArray
  /-- -4 -/
  | quote
  /-- -3 -/
  | comma
  /-- -2 -/
  | colon
  /-- -10 -/
  | numericColon
deriving DecidableEq, Repr

inductive Entry where
  | error
  | state (s : State)
  | action (a : Action)
deriving DecidableEq, Repr

/-- `ascii_class`: no class is `__`. -/
def asciiClass : List (Option CharClass) :=
  let __ : Option CharClass := none
  let white : Option CharClass := some .white
  let etc : Option CharClass := some .etc
  let digit : Option CharClass := some .digit
  let abcdf : Option CharClass := some .abcdf
  [__, __, __, __, __, __, __, __,
   __, white, white, __, __, white, __, __,
   __, __, __, __, __, __, __, __,
   __, __, __, __, __, __, __, __,
   some .space, etc, some .quote, etc, etc, etc, etc, etc,
   etc, etc, etc, some .plus, some .comma, some .minus, some .point, some .slash,
   some .zero, digit, digit, digit, digit, digit, digit, digit,
   digit, digit, some .colon, etc, etc, etc, etc, etc,
   etc, abcdf, abcdf, abcdf, abcdf, some .e, abcdf, etc,
   etc, etc, etc, etc, etc, etc, etc, etc,
   etc, etc, etc, etc, etc, etc, etc, etc,
   etc, etc, etc, some .lsqrb, some .backs, some .rsqrb, etc, etc,
   etc, some .lowA, some .lowB, some .lowC, some .lowD, some .lowE, some .lowF, etc,
   etc, etc, etc, etc, some .lowL, etc, some .lowN, etc,
   etc, etc, some .lowR, some .lowS, some .lowT, some .lowU, etc, etc,
   etc, etc, etc, some .lcurb, etc, some .rcurb, etc, etc]

/-- The class of a character: `C_ETC` from 128 on. -/
def charClass (c : Nat) : Option CharClass :=
  if 128 ≤ c then some .etc else (asciiClass[c]?).join

/-- Where the class stands in a row of the table. -/
def CharClass.column : CharClass → Nat
  | space => 0 | white => 1 | lcurb => 2 | rcurb => 3 | lsqrb => 4 | rsqrb => 5 | colon => 6 | comma => 7 | quote => 8
  | backs => 9 | slash => 10 | plus => 11 | minus => 12 | point => 13 | zero => 14 | digit => 15 | lowA => 16 | lowB => 17
  | lowC => 18 | lowD => 19 | lowE => 20 | lowF => 21 | lowL => 22 | lowN => 23 | lowR => 24 | lowS => 25 | lowT => 26
  | lowU => 27 | abcdf => 28 | e => 29 | etc => 30

def stateTransitionTable : State → List Entry :=
  let __ : Entry := .error
  let go : Entry := .state .go
  let ok : Entry := .state .ok
  let ob : Entry := .state .ob
  let ke : Entry := .state .ke
  let co : Entry := .state .co
  let va : Entry := .state .va
  let ar : Entry := .state .ar
  let st : Entry := .state .st
  let es : Entry := .state .es
  let u1 : Entry := .state .u1
  let u2 : Entry := .state .u2
  let u3 : Entry := .state .u3
  let u4 : Entry := .state .u4
  let mi : Entry := .state .mi
  let ze : Entry := .state .ze
  let int : Entry := .state .int
  let fr : Entry := .state .fr
  let e1 : Entry := .state .e1
  let e2 : Entry := .state .e2
  let e3 : Entry := .state .e3
  let t1 : Entry := .state .t1
  let t2 : Entry := .state .t2
  let t3 : Entry := .state .t3
  let f1 : Entry := .state .f1
  let f2 : Entry := .state .f2
  let f3 : Entry := .state .f3
  let f4 : Entry := .state .f4
  let n1 : Entry := .state .n1
  let n2 : Entry := .state .n2
  let n3 : Entry := .state .n3
  let m2 : Entry := .action .colon
  let m3 : Entry := .action .comma
  let m4 : Entry := .action .quote
  let m5 : Entry := .action .openArray
  let m6 : Entry := .action .openObject
  let m7 : Entry := .action .closeArray
  let m8 : Entry := .action .closeObject
  let m9 : Entry := .action .emptyObject
  let m10 : Entry := .action .numericColon
  fun
  | .go => [go, go, m6, __, m5, __, __, __, st, __, __, __, __, __, __, __, __, __, __, __, __, __, __, __, __, __, __, __, __, __, __]
  | .ok => [ok, ok, __, m8, __, m7, __, m3, __, __, __, __, __, __, __, __, __, __, __, __, __, __, __, __, __, __, __, __, __, __, __]
  | .ob => [ob, ob, __, m9, __, __, __, __, st, __, __, __, __, __, int, int, __, __, __, __, __, __, __, __, __, __, __, __, __, __, __]
  | .ke => [ke, ke, __, __, __, __, __, __, st, __, __, __, __, __, int, int, __, __, __, __, __, __, __, __, __, __, __, __, __, __, __]
  | .co => [co, co, __, __, __, __, m2, __, __, __, __, __, __, __, __, __, __, __, __, __, __, __, __, __, __, __, __, __, __, __, __]
  | .va => [va, va, m6, __, m5, __, __, __, st, __, __, __, mi, __, ze, int, __, __, __, __, __, f1, __, n1, __, __, t1, __, __, __, __]
  | .ar => [ar, ar, m6, __, m5, m7, __, __, st, __, __, __, mi, __, ze, int, __, __, __, __, __, f1, __, n1, __, __, t1, __, __, __, __]
  | .st => [st, __, st, st, st, st, st, st, m4, es, st, st, st, st, st, st, st, st, st, st, st, st, st, st, st, st, st, st, st, st, st]
  | .es => [__, __, __, __, __, __, __, __, st, st, st, __, __, __, __, __, __, st, __, __, __, st, __, st, st, __, st, u1, __, __, __]
  | .u1 => [__, __, __, __, __, __, __, __, __, __, __, __, __, __, u2, u2, u2, u2, u2, u2, u2, u2, __, __, __, __, __, __, u2, u2, __]
  | .u2 => [__, __, __, __, __, __, __, __, __, __, __, __, __, __, u3, u3, u3, u3, u3, u3, u3, u3, __, __, __, __, __, __, u3, u3, __]
  | .u3 => [__, __, __, __, __, __, __, __, __, __, __, __, __, __, u4, u4, u4, u4, u4, u4, u4, u4, __, __, __, __, __, __, u4, u4, __]
  | .u4 => [__, __, __, __, __, __, __, __, __, __, __, __, __, __, st, st, st, st, st, st, st, st, __, __, __, __, __, __, st, st, __]
  | .mi => [__, __, __, __, __, __, __, __, __, __, __, __, __, __, ze, int, __, __, __, __, __, __, __, __, __, __, __, __, __, __, __]
  | .ze => [ok, ok, __, m8, __, m7, __, m3, __, __, __, __, __, fr, __, __, __, __, __, __, e1, __, __, __, __, __, __, __, __, e1, __]
  | .int => [ok, ok, __, m8, __, m7, m10, m3, __, __, __, __, __, fr, int, int, __, __, __, __, e1, __, __, __, __, __, __, __, __, e1, __]
  | .fr => [ok, ok, __, m8, __, m7, m10, m3, __, __, __, __, __, __, fr, fr, __, __, __, __, e1, __, __, __, __, __, __, __, __, e1, __]
  | .e1 => [__, __, __, __, __, __, __, __, __, __, __, e2, e2, __, e3, e3, __, __, __, __, __, __, __, __, __, __, __, __, __, __, __]
  | .e2 => [__, __, __, __, __, __, __, __, __, __, __, __, __, __, e3, e3, __, __, __, __, __, __, __, __, __, __, __, __, __, __, __]
  | .e3 => [ok, ok, __, m8, __, m7, __, m3, __, __, __, __, __, __, e3, e3, __, __, __, __, __, __, __, __, __, __, __, __, __, __, __]
  | .t1 => [__, __, __, __, __, __, __, __, __, __, __, __, __, __, __, __, __, __, __, __, __, __, __, __, t2, __, __, __, __, __, __]
  | .t2 => [__, __, __, __, __, __, __, __, __, __, __, __, __, __, __, __, __, __, __, __, __, __, __, __, __, __, __, t3, __, __, __]
  | .t3 => [__, __, __, __, __, __, __, __, __, __, __, __, __, __, __, __, __, __, __, __, ok, __, __, __, __, __, __, __, __, __, __]
  | .f1 => [__, __, __, __, __, __, __, __, __, __, __, __, __, __, __, __, f2, __, __, __, __, __, __, __, __, __, __, __, __, __, __]
  | .f2 => [__, __, __, __, __, __, __, __, __, __, __, __, __, __, __, __, __, __, __, __, __, __, f3, __, __, __, __, __, __, __, __]
  | .f3 => [__, __, __, __, __, __, __, __, __, __, __, __, __, __, __, __, __, __, __, __, __, __, __, __, __, f4, __, __, __, __, __]
  | .f4 => [__, __, __, __, __, __, __, __, __, __, __, __, __, __, __, __, __, __, __, __, ok, __, __, __, __, __, __, __, __, __, __]
  | .n1 => [__, __, __, __, __, __, __, __, __, __, __, __, __, __, __, __, __, __, __, __, __, __, __, __, __, __, __, n2, __, __, __]
  | .n2 => [__, __, __, __, __, __, __, __, __, __, __, __, __, __, __, __, __, __, __, __, __, __, n3, __, __, __, __, __, __, __, __]
  | .n3 => [__, __, __, __, __, __, __, __, __, __, __, __, __, __, __, __, __, __, __, __, __, __, ok, __, __, __, __, __, __, __, __]

/-- `state_transition_table[jp->state][next_class]` -/
def nextState (s : State) (cls : CharClass) : Entry := ((stateTransitionTable s)[cls.column]?).getD .error

end Json
end ObjectScript
