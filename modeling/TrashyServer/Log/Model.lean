/-
The log (src/log.h): `logging` expands its format and hands the text to
`logging_in`.

`expand` is the loop of `logging`. It replaces a directive in the text
it is scanning and goes on from the index it has, so both are its state.
`taken` lists that state at each `va_arg`, in order; no statement of the
source reads it. An argument is what the call passed: a `char *`, as the
bytes before its NUL, or an `int`. What the source leaves undefined ends
the call with a `Misuse`: a `va_arg` behind the last argument or of
another type, a number that `result_` has no room for, and a line that
`logging_char_buff` has no room for. The time in a line is a parameter:
what `ctime` returned, without its newline.

The index is a `Nat`, as the `int i` is for texts shorter than 2^31.
`va_end` is not called, which has no effect on this platform.
-/
import TrashyServer.Str

namespace TrashyServer.Log

-- ============================================================== the types

/-- `LEVEL`. -/
inductive Level
  | debug
  | info
  | warn
  | error
deriving DecidableEq

/-- The bytes of a C string. -/
abbrev CStr : Type := { s : Str // nul ∉ s }

/-- An argument behind the format. -/
inductive Arg
  | string (p : CStr)
  | int (n : Int)
deriving DecidableEq

/-- What a call is not entitled to do. -/
inductive Misuse
  /-- `va_arg` with no argument left. -/
  | noArgument
  /-- `va_arg` of another type. -/
  | wrongType
  /-- `sprintf` past the end of `result_`. -/
  | overflow
  /-- `sprintf` past the end of `logging_char_buff`. -/
  | lineOverflow
deriving DecidableEq

/-- What the loop leaves: the text, and the arguments not taken. -/
structure Expansion where
  fmtStr : Str
  args : List Arg
  taken : List (Str × Nat)
deriving DecidableEq

-- =============================================================== the loop

/-- `'%'`. -/
def percent : UInt8 := 37

/-- `'s'`. -/
def letterS : UInt8 := 115

/-- `'d'`. -/
def letterD : UInt8 := 100

/-- What `"%d"` prints. -/
def decimal (n : Int) : Str := bytes (toString n)

/-- `str_l + text + str_r`, for a directive that ends at `i`. -/
def replace (fmtStr : Str) (i : Nat) (text : Str) : Str :=
  fmtStr.take (i - 1) ++ text ++ fmtStr.drop (i + 1)

/-- The loop of `logging`, from index `i` on. -/
def expand (fmtStr : Str) (i : Nat) (args : List Arg)
    (taken : List (Str × Nat)) : Except Misuse Expansion :=
  if i < fmtStr.length then
    if fmtStr.getD i nul ≠ percent then expand fmtStr (i + 1) args taken
    else if fmtStr.getD (i + 1) nul = letterS then
      match args with
      | .string p :: args =>
          expand (replace fmtStr (i + 1) p.val) (i + 2) args
            (taken ++ [(fmtStr, i + 1)])
      | .int _ :: _ => .error .wrongType
      | [] => .error .noArgument
    else if fmtStr.getD (i + 1) nul = percent then
      expand fmtStr (i + 2) args taken
    else if fmtStr.getD (i + 1) nul = letterD then
      match args with
      | .int n :: args =>
          if 7 ≤ (decimal n).length then .error .overflow
          else
            expand (replace fmtStr (i + 1) (decimal n)) (i + 2) args
              (taken ++ [(fmtStr, i + 1)])
      | .string _ :: _ => .error .wrongType
      | [] => .error .noArgument
    else expand fmtStr (i + 2) args taken
  else .ok ⟨fmtStr, args, taken⟩
termination_by (args.length, fmtStr.length - i)

-- ============================================================ the whole call

/-- `DEFAULT_MAXLENGTH`, the size of `logging_char_buff`. -/
def defaultMaxlength : Nat := 4096

/-- `logging_in`: the line that is printed. Only that of `ERROR` is made
in an array first. -/
def loggingIn (level : Level) (time : CStr) (loggingStr : Str) :
    Except Misuse Str :=
  let rest := time.val ++ bytes " , " ++ cut loggingStr ++ bytes "\n"
  match level with
  | .debug => .ok (bytes "[ DEBUG ] " ++ rest)
  | .info => .ok (bytes "[ INFO ]  " ++ rest)
  | .warn => .ok (bytes "[ WARN ]  " ++ rest)
  | .error =>
      let loggingCharBuff := bytes "[ ERROR ] " ++ rest
      if loggingCharBuff.length < defaultMaxlength then .ok loggingCharBuff
      else .error .lineOverflow

/-- `logging`. -/
def logging (time : CStr) (level : Level) (fmt : CStr) (args : List Arg) :
    Except Misuse Str := do
  let e ← expand fmt.val 0 args []
  loggingIn level time e.fmtStr

end TrashyServer.Log
