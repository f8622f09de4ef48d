/-
The server's handling of one readable connection (src/Server.cpp).

`do_somthing` reads into a `MAXLINE`-byte array on its stack and hands
the array to the request parser as a C string. The parser reads on to
the first NUL: through what the array held before, and past the array
into `behind`, the memory that follows it.
-/
import TrashyServer.Tool.HttpParse

namespace TrashyServer.Server

open Tool

/-- `MAXLINE`. -/
def maxline : Nat := 102400

/-- What a call of `read` does: -1 with `EINTR`, -1 with another
`errno`, or the bytes it stores. -/
inductive ReadResult
  | eintr
  | failed
  | got (d : Str)

/-- The loop around `read`: the bytes of the first call that succeeds.
`none` is `exit(EXIT_FAILURE)`, or the results running out. -/
def readLoop : List ReadResult → Option Str
  | [] => none
  | .eintr :: reads => readLoop reads
  | .failed :: _ => none
  | .got d :: _ => some d

/-- The object `do_somthing` builds from an array holding `buff`. -/
def parsed (raw : Raw) (buff behind : Str) (reads : List ReadResult) :
    Option (Except Fault HttpParse) :=
  (readLoop reads).map fun d =>
    httpParse raw (d ++ buff.drop d.length ++ behind)

end TrashyServer.Server
