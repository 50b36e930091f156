import DeviceCode.CUnit.Syntax
import DeviceCode.Decimal
import DeviceCode.Diagnostic

/-!
# C text

How the C subset is written, and the text that every unit starts with.
-/

namespace DeviceCode

namespace CPlace

def temporaryName (depth : Nat) (type : CType) : String :=
  "s" ++ toString depth ++ "_" ++ type.name

def text : CPlace → String
  | argument type offset => "ARG(" ++ type.name ++ ", " ++ toString offset.toNat ++ ")"
  | static type offset => "SFLD(" ++ type.name ++ ", " ++ toString offset.toNat ++ ")"
  | localVar index => "var" ++ toString index.toNat
  | temporary depth type => temporaryName depth type

end CPlace

namespace CUnary

def text : CUnary → String
  | minus => "-"
  | complement => "~"
  | logicalNot => "!"

end CUnary

namespace CBinary

def text : CBinary → String
  | add => "+"
  | sub => "-"
  | mul => "*"
  | div => "/"
  | rem => "%"
  | and => "&"
  | or => "|"
  | xor => "^"
  | shl => "<<"
  | shr => ">>"
  | eq => "=="
  | ne => "!="
  | ge => ">="
  | gt => ">"
  | le => "<="
  | lt => "<"

end CBinary

namespace CCallee

def text : CCallee → String
  | add => "diver_add"
  | sub => "diver_sub"
  | mul => "diver_mul"
  | div => "diver_div"
  | rem => "diver_rem"
  | neg => "diver_neg"
  | floatRemainder => "fmodf"
  | library symbol => symbol

end CCallee

namespace CExpr

/-- An integer literal. The least integer has no literal of its own. -/
def intText (v : Int32) : String :=
  if v = Int32.minValue then "(-2147483647 - 1)"
  else if v < 0 then "(" ++ toString v.toInt ++ ")"
  else toString v.toInt

def floatText (bits : UInt32) : String :=
  let text := Binary32.text bits ++ "f"
  if Binary32.isNegative bits && !Binary32.isZero bits then "(" ++ text ++ ")" else text

mutual

def text : CExpr → String
  | read p => p.text
  | int v => intText v
  | float bits => floatText bits
  | null => "0"
  | paren e => "(" ++ text e ++ ")"
  | cast type e => "(" ++ type.name ++ ")(" ++ text e ++ ")"
  | unary op e => op.text ++ text e
  | binary op a b => text a ++ " " ++ op.text ++ " " ++ text b
  | call callee args => callee.text ++ "(" ++ Text.join ", " (texts args) ++ ")"

def texts : List CExpr → List String
  | [] => []
  | e :: es => text e :: texts es

end

end CExpr

namespace CFunction

def nameOf (index : Nat) : String := "cfun" ++ toString index

end CFunction

namespace CStmt

def argumentText (a : CArgument) : String :=
  " *(" ++ a.type.name ++ "*)(cargs + " ++ toString a.offset.toNat ++ ") = " ++ a.value.text ++ ";"

def text : CStmt → String
  | label index => instructionLabel index ++ ":;"
  | assign place value => place.text ++ " = " ++ value.text ++ ";"
  | moveAll moves =>
    let loads := moves.map fun m =>
      " " ++ m.type.name ++ " t" ++ toString m.depth ++ " = " ++ m.value.text ++ ";"
    let stores := moves.map fun m =>
      " " ++ CPlace.temporaryName m.depth m.type ++ " = t" ++ toString m.depth ++ ";"
    "\x7b" ++ String.join loads ++ String.join stores ++ " \x7d"
  | ret none => "return;"
  | ret (some value) => "return " ++ value.text ++ ";"
  | goto target => "goto " ++ instructionLabel target ++ ";"
  | gotoIf condition target =>
    "if (" ++ condition.text ++ ") goto " ++ instructionLabel target ++ ";"
  | switch value targets =>
    let cases := targets.zipIdx.map fun (target, i) =>
      " case " ++ toString i ++ ": goto " ++ instructionLabel target ++ ";"
    "switch (" ++ value.text ++ ") \x7b" ++ String.join cases ++ " \x7d"
  | call result callee size args =>
    let target := match result with
      | some place => " " ++ place.text ++ " = "
      | none => " "
    "\x7b u1 cargs[" ++ toString size ++ "];" ++ String.join (args.map argumentText) ++ target ++
      CFunction.nameOf callee ++ "(cargs, statics); \x7d"

/-- A statement on a line of its own; labels stand at the margin. -/
def line (s : CStmt) : String :=
  match s with
  | label _ => s.text ++ "\n"
  | _ => "    " ++ s.text ++ "\n"

end CStmt

namespace CFunction

def prototype (f : CFunction) : String :=
  let ret := match f.ret with
    | some type => type.name
    | none => "void"
  ret ++ " " ++ nameOf f.index ++ "(u1* args, u1* statics)"

def text (f : CFunction) : String :=
  let locals := f.locals.map fun (n, type) =>
    "    " ++ type.name ++ " var" ++ toString n ++ " = 0;\n"
  let temporaries := f.temporaries.map fun (depth, type) =>
    "    " ++ type.name ++ " " ++ CPlace.temporaryName depth type ++ ";\n"
  "/* " ++ f.signature ++ " */\n" ++ f.prototype ++ "\n\x7b\n" ++ String.join locals ++
    String.join temporaries ++ String.join (f.body.map CStmt.line) ++ "\x7d\n"

end CFunction

namespace CUnit

/-- The lines that every unit starts with: types, accesses and wrapping arithmetic. -/
def preludeLines : List String := [
  "/* Generated by diver. */",
  "#include <math.h>",
  "#include <stdlib.h>",
  "",
  "typedef unsigned char u1;",
  "typedef signed char i1;",
  "typedef unsigned short u2;",
  "typedef signed short i2;",
  "typedef signed int i4;",
  "typedef unsigned int u4;",
  "typedef float r4;",
  "typedef u4 ptr;",
  "",
  "#define ARG(T, off) (*(T*)(args + (off)))",
  "#define SFLD(T, off) (*(T*)(statics + (off)))",
  "#define DIVER_MAX(a, b) ((a) > (b) ? (a) : (b))",
  "#define DIVER_MIN(a, b) ((a) < (b) ? (a) : (b))",
  "#define DIVER_CLAMP(v, lo, hi) DIVER_MIN(DIVER_MAX((v), (lo)), (hi))",
  "#define DIVER_SIGN(v) (((v) > 0) - ((v) < 0))",
  "#define DIVER_LOGB(v, b) (logf(v) / logf(b))",
  "",
  "static inline i4 diver_add(i4 a, i4 b) \x7b return (i4)((u4)a + (u4)b); \x7d",
  "static inline i4 diver_sub(i4 a, i4 b) \x7b return (i4)((u4)a - (u4)b); \x7d",
  "static inline i4 diver_mul(i4 a, i4 b) \x7b return (i4)((u4)a * (u4)b); \x7d",
  "static inline i4 diver_neg(i4 a) \x7b return (i4)(0u - (u4)a); \x7d",
  "static inline i4 diver_div(i4 a, i4 b) \x7b return b == -1 ? diver_neg(a) : a / b; \x7d",
  "static inline i4 diver_rem(i4 a, i4 b) \x7b return b == -1 ? 0 : a % b; \x7d",
  ""]

def prelude : String := String.join (preludeLines.map (· ++ "\n"))

def body (u : CUnit) : String :=
  String.join (u.functions.map fun f => f.prototype ++ ";\n") ++
    String.join (u.functions.map fun f => "\n" ++ f.text)

def text (u : CUnit) : String := prelude ++ u.body

end CUnit

end DeviceCode
