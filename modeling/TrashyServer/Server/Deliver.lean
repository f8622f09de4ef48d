/-
How a page is read, and what is made of it (`GET_Response::response` and
`DEFAULT_Response::response` in src/Server.cpp).

# Reading

A GET reads its file with `read` into `buff_`; what the calls on a
descriptor return is a list of pieces (`Reads`), at whose end stands the
end of the file or an error, which the loop does not tell apart. `buff_`
is cleared first, so the model keeps only the `sum_n` bytes that are
stored. A piece that does not fit behind them is `Fault.vectorRange`.
`readSums` is the same `switch` over what the calls return (`Results`):
where they would store to, in or behind the array.

The other response reads with `std::fstream`. Its `buff_` is not
cleared; it and `behind`, the memory that follows it, are what they were
before, and the array is read as a C string.

# Writing

Either response calls `write` once and only logs what that returns.
`accepts` is the number of bytes the socket takes of that call; none
when the call fails.

`headerBuff` is what `sprintf` left in `http_header_buff`. The parts of
`GET_Response::response` are put together in Respond.lean, with what they
log (Logs.lean). The messages of `DEFAULT_Response::response` name
nothing a client has sent and stand beside it there.
-/
import TrashyServer.Config.Model
import TrashyServer.Server.Pages

namespace TrashyServer.Server

open Config (dot strcpy strOffsetL)

-- ============================================================== the suffix

/-- The part of a text from the last `c` on. -/
def lastFrom (c : UInt8) : Str → Option Str
  | [] => none
  | b :: s =>
      match lastFrom c s with
      | some text => some text
      | none => if b = c then some (b :: s) else none

/-- `strrchr(s, c)`: what the pointer points at, `none` being the null
pointer. -/
def strrchr (s : Str) (c : UInt8) : Option Str := lastFrom c (cut s)

/-- `get_text_file_T`, its message left to Logs.lean. -/
def getTextFileT (str : Str) : Except Fault Str := do
  let parseBuff ← strcpy maxline str
  let typeStr := strrchr parseBuff dot
  let tailLen := strOffsetL parseBuff typeStr
  substr str (tailLen + 1) str.length

-- ============================================================= GET_Response

/-- What the calls of `read` on a file return before one returns no
bytes: never none, never more than asked for, and the file's bytes in
order. -/
structure Reads (file : Str) where
  pieces : List Str
  nonempty : ∀ d ∈ pieces, d ≠ []
  short : ∀ d ∈ pieces, d.length ≤ maxline
  within : pieces.flatten <+: file

/-- The files behind the descriptors, a descriptor without one being
empty, and how they are read. -/
structure Descriptors where
  file : Int → Str
  reads : ∀ fileno, Reads (file fileno)

/-- One of the three read loops of `GET_Response::response`, which are
the same. -/
def pageLoop (buff : Str) : List Str → Except Fault Str
  | [] => .ok buff
  | d :: reads =>
      if maxline < buff.length + d.length then .error .vectorRange
      else if maxline ≤ (buff ++ d).length then .ok (buff ++ d)
      else pageLoop (buff ++ d) reads

/-- The `switch` of `GET_Response::response`. -/
def readPage (responseStatus : Nat) (pieces : List Str) : Except Fault Str :=
  match responseStatus with
  | 200 => pageLoop [] pieces
  | 404 => pageLoop [] pieces
  | 500 => pageLoop [] pieces
  | _ => .ok []

/-- What the calls of `read` on a descriptor return: -1 for an error,
otherwise a number of bytes, never more than asked for. -/
structure Results where
  values : List Int
  allowed : ∀ n ∈ values, -1 ≤ n ∧ n ≤ maxline

/-- The read loop without the bytes: `sum_n` after each call. The array
is not looked at. -/
def sumLoop (sumN : Int) : List Int → List Int
  | [] => []
  | n :: results =>
      if 0 < n then
        if maxline ≤ sumN + n then [sumN + n]
        else (sumN + n) :: sumLoop (sumN + n) results
      else [sumN]

/-- The `switch` over these loops. -/
def readSums (responseStatus : Nat) (results : List Int) : List Int :=
  match responseStatus with
  | 200 => sumLoop 0 results
  | 404 => sumLoop 0 results
  | 500 => sumLoop 0 results
  | _ => []

/-- What the calls return that `Reads` gives the pieces of. -/
def Reads.results {file : Str} (r : Reads file) : Results where
  values := r.pieces.map fun d => (d.length : Int)
  allowed := by
    intro n hn
    obtain ⟨d, hd, rfl⟩ := List.mem_map.mp hn
    have hshort := r.short d hd
    omega

-- ========================================================= DEFAULT_Response

/-- The stream and the array it is read into. -/
structure PageRead where
  file : FileStream
  buff : Str

/-- `while(!file.eof())`. -/
def PageRead.more (p : PageRead) : Bool := !p.file.eof

/-- `file.read(buff_, sizeof(buff_))`: each call stores from the front. -/
def PageRead.body (p : PageRead) : Except Fault PageRead :=
  let (file, d) := p.file.read maxline
  .ok ⟨file, d ++ p.buff.drop d.length⟩

/-- `DEFAULT_Response::response`, at most `n` times round its loop: the
bytes put on the socket. -/
def defaultResponse (n : Nat) (file : FileBehaviour) (buff behind : Str)
    (headerBuff : Str) (accepts : Nat) : Option (Except Fault Str) :=
  let tmp := cut headerBuff
  match file with
  | .openFails => some (.ok ((tmp ++ [nul]).take accepts))
  | .opens content ending =>
      (Loop.rounds PageRead.more PageRead.body n
          ⟨.new (.opens content ending), buff⟩).map fun r => do
        let p ← r
        let fileStorage ← cstr (p.buff ++ behind)
        .ok ((tmp ++ fileStorage ++ [nul]).take accepts)

end TrashyServer.Server
