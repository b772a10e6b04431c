/-!
# Operators and intrinsic functions

The operators of expressions with their written symbols and binding strengths, and the functions
that the language has built in.
-/

namespace LineBasic

inductive UnaryOp where
  | neg | not
  deriving DecidableEq, Repr

namespace UnaryOp

/-- The written symbol, with the blank that keeps a word apart from its operand. -/
def symbol : UnaryOp → String
  | neg => "-"
  | not => "NOT "

/-- The binding strength; a higher number binds tighter. -/
def precedence : UnaryOp → Nat
  | not => 6
  | neg => 12

end UnaryOp

inductive BinaryOp where
  | pow | mul | div | intDiv | mod | add | sub | eq | ne | lt | le | gt | ge
  | and | or | xor | eqv | imp
  deriving DecidableEq, Repr

namespace BinaryOp

def all : List BinaryOp :=
  [pow, mul, div, intDiv, mod, add, sub, eq, ne, lt, le, gt, ge, and, or, xor, eqv, imp]

def symbol : BinaryOp → String
  | pow => "^"
  | mul => "*"
  | div => "/"
  | intDiv => "\\"
  | mod => "MOD"
  | add => "+"
  | sub => "-"
  | eq => "="
  | ne => "<>"
  | lt => "<"
  | le => "<="
  | gt => ">"
  | ge => ">="
  | and => "AND"
  | or => "OR"
  | xor => "XOR"
  | eqv => "EQV"
  | imp => "IMP"

def ofSymbol? (s : String) : Option BinaryOp := all.find? fun op => op.symbol == s

/-- The binding strength; a higher number binds tighter. -/
def precedence : BinaryOp → Nat
  | imp => 1
  | eqv => 2
  | xor => 3
  | or => 4
  | and => 5
  | eq | ne | lt | le | gt | ge => 7
  | add | sub => 8
  | mod => 9
  | intDiv => 10
  | mul | div => 11
  | pow => 13

def isCommutative : BinaryOp → Bool
  | add | mul | eq | ne | and | or | xor | eqv => true
  | _ => false

def isRelational : BinaryOp → Bool
  | eq | ne | lt | le | gt | ge => true
  | _ => false

def isLogical : BinaryOp → Bool
  | and | or | xor | eqv | imp => true
  | _ => false

/-- The relation that holds exactly where this one fails. -/
def inverted? : BinaryOp → Option BinaryOp
  | eq => some ne
  | ne => some eq
  | lt => some ge
  | ge => some lt
  | gt => some le
  | le => some gt
  | _ => none

/-- The same relation with its operands exchanged. -/
def swapped? : BinaryOp → Option BinaryOp
  | eq => some eq
  | ne => some ne
  | lt => some gt
  | gt => some lt
  | le => some ge
  | ge => some le
  | _ => none

end BinaryOp

/-- The functions that the language has built in. -/
inductive Intrinsic where
  | abs | asc | atn | cdbl | chr | cint | cos | csng | cvd | cvi | cvs | eof | exp | erl | err
  | fix | fre | hex | inkey | inp | input | instr | int | left | len | loc | lof | log | lpos
  | mid | mkd | mki | mks | oct | peek | pos | right | rnd | sgn | sin | space | spc | sqr | str
  | string | tab | tan | timer | usr | val | varptr
  deriving DecidableEq, Repr

namespace Intrinsic

def all : List Intrinsic :=
  [abs, asc, atn, cdbl, chr, cint, cos, csng, cvd, cvi, cvs, eof, exp, erl, err, fix, fre, hex,
    inkey, inp, input, instr, int, left, len, loc, lof, log, lpos, mid, mkd, mki, mks, oct, peek,
    pos, right, rnd, sgn, sin, space, spc, sqr, str, string, tab, tan, timer, usr, val, varptr]

def name : Intrinsic → String
  | abs => "ABS" | asc => "ASC" | atn => "ATN" | cdbl => "CDBL" | chr => "CHR$" | cint => "CINT"
  | cos => "COS" | csng => "CSNG" | cvd => "CVD" | cvi => "CVI" | cvs => "CVS" | eof => "EOF"
  | exp => "EXP" | erl => "ERL" | err => "ERR" | fix => "FIX" | fre => "FRE" | hex => "HEX$"
  | inkey => "INKEY$" | inp => "INP" | input => "INPUT$" | instr => "INSTR" | int => "INT"
  | left => "LEFT$" | len => "LEN" | loc => "LOC" | lof => "LOF" | log => "LOG" | lpos => "LPOS"
  | mid => "MID$" | mkd => "MKD$" | mki => "MKI$" | mks => "MKS$" | oct => "OCT$"
  | peek => "PEEK" | pos => "POS" | right => "RIGHT$" | rnd => "RND" | sgn => "SGN"
  | sin => "SIN" | space => "SPACE$" | spc => "SPC" | sqr => "SQR" | str => "STR$"
  | string => "STRING$" | tab => "TAB" | tan => "TAN" | timer => "TIMER" | usr => "USR"
  | val => "VAL" | varptr => "VARPTR"

/-- The function of an upper-case name. -/
def ofName? (s : String) : Option Intrinsic := all.find? fun f => f.name == s

/-- Two calls with the same arguments may give different results. -/
def isImpure : Intrinsic → Bool
  | rnd | inkey | input | peek | inp | fre | pos | lpos | eof | loc | lof | usr | varptr | timer
  | err | erl => true
  | _ => false

end Intrinsic
end LineBasic
