/-
The event loop of the old server (`Server::run` and `do_somthing` in
src/Server.cpp), from the first `epoll_wait` to the end of the process.

# The descriptors

`table` is the process's open descriptors and `interest` epoll's
interest list. `epoll_wait` reports descriptors of that list, each of
them once, and at most `MAX_EVENT` of them (`batch`); the loop takes
them one after the other. `accept` and `open` give descriptors that are
not open, `open` a positive one, as 0 to 2 have been open from the
start. A descriptor that is closed leaves the interest list too. The
streams close the descriptors they open themselves.

# A request

A call of `do_somthing` depends on what the memory it uses holds and on
what the calls it makes answer; `Call` is all of that, so every
behaviour is some call's. The model puts together the request parser,
the configuration it is handled under, the dispatch and the five
responses, and closes what the source closes: each method handler the
connection, and then `~GET_Response` the descriptor `try_open` left.

What ends the process is an `ExitCause`: an exit, an exception that
nobody catches or a store behind an array, a message that takes an
argument which was not passed, or SIGPIPE from a `write` on a connection
that its client has reset, as SIGINT is the only signal with a handler. A
call that does not come back takes no step, and neither does one whose
bound on the rounds of a loop is too small to see it come back.

The messages are those of Logs.lean. One time is given to all messages of
a call, and those of the parser are taken behind it, when it has come to
its end: which of the two ends the process first is not told apart.

# The ledger

No statement of the source reads `accepted`, `live` and `answers`: how
many connections were accepted, which number the connection behind a
descriptor has, and what was put on each before it was closed.
-/
import TrashyServer.Server.Put
import TrashyServer.Server.Respond
import TrashyServer.Server.Site
import TrashyServer.Lib.Runs

namespace TrashyServer.Server

open Dir (Utils)
open Loop (andThen)
open Tool

-- ======================================================= one request's call

/-- `MAX_EVENT`. -/
def maxEvent : Nat := 50

/-- How the process ends. -/
inductive ExitCause
  /-- `exit`, of the loop or of the signal handler. -/
  | exit
  /-- What nobody catches. -/
  | fault (fault : PutFault)
  /-- A message takes more than was handed over, or has no room. -/
  | misuse (misuse : Log.Misuse)
  /-- What nobody handles. -/
  | sigpipe
deriving DecidableEq

/-- How a response that is stopped ends the process. -/
def Stop.cause : Stop → ExitCause
  | .library fault => .fault (.library fault)
  | .misuse m => .misuse m

/-- A library call. -/
def calls {α : Type} (x : Except Fault α) : Except ExitCause α :=
  x.mapError fun fault => .fault (.library fault)

/-- Messages, in turn. -/
def logged (time : Stamp) (ls : List LogCall) : Except ExitCause Unit :=
  (printed time.text ls).mapError .misuse

/-- What the configuration comes to. -/
def configured {α : Type} (x : Option (Except Fault α)) :
    Option (Except ExitCause α) :=
  x.map (·.mapError fun fault => .fault (.library fault))

/-- What a call of `do_somthing` finds in memory, and what the calls it
makes answer. -/
structure Call where
  /-- The uninitialised members of the request, the array `read` stores
  into, and the memory behind it. -/
  raw : Raw
  buff : Str
  behind : Str
  /-- How often `read` is interrupted, and what it does then. -/
  interrupts : Nat
  read : Option Str
  /-- The configuration, as `set_path` reads it and as the response reads
  it again. -/
  config : ConfigRead
  configAgain : ConfigRead
  /-- What the response finds: the uninitialised members of a GET's or
  PUT's, `http_header_buff`, the texts behind the pointers, and the byte
  before an empty string. -/
  oldStatus : Nat
  oldFileno : Int
  heap : Heap headerSize
  statusText : Nat → Str
  date : Str
  stray : UInt8
  /-- The first and the second `open` of a GET, and its page. -/
  firstOpen : Int × Errno
  secondOpen : Int × Errno
  pages : Descriptors
  /-- `index.html` of the default response, the array it is read into
  and the memory behind it, and a bound on the rounds of its loop. -/
  index : FileBehaviour
  pageBuff : Str
  pageBehind : Str
  rounds : Nat
  /-- How many bytes the socket takes; whether a `write` of which it takes
  none returns 0; and whether the client has reset the connection. -/
  accepts : Nat
  zero : Bool
  reset : Bool
  /-- What a message names: the file its call stands in, for the responses
  and for the parser, what is found at a `std::string` that is taken for
  a text, by the line of the request, and the time. -/
  file : FileName
  toolFile : FileName
  object : Nat → Log.CStr
  time : Stamp

namespace Call

variable (c : Call)

/-- What the calls of `read` on the connection do. -/
def reads : List ReadResult :=
  List.replicate c.interrupts .eintr
    ++ [match c.read with
      | none => .failed
      | some d => .got d]

/-- What `open` answers, whatever the name. -/
def fs : FileSystem := fun opened _ =>
  if opened.isEmpty then c.firstOpen else c.secondOpen

/-- The pages path `set_path` puts in front. -/
def pagesPath : Str := c.config.pagesPath

/-- The pages path a response finds. -/
def laterPath : Str := c.configAgain.pagesPath

/-- The text `sprintf` makes of a status. -/
def headerBuff (responseStatus : Nat) : Str :=
  pageHeader (c.statusText responseStatus) c.date

/-- `GET_Response(path)`. -/
def getResponse (route : Str) : GetResponse :=
  ⟨route, c.oldStatus, c.oldFileno, []⟩

/-- `ENXIO`, for which `try_open` asks for the pages path. -/
def device : Bool :=
  match c.firstOpen.2 with
  | .enxio => c.firstOpen.1 ≤ 0
  | _ => false

/-- The configuration that `try_open` makes an object of. -/
def tryOpenConfig : Option (Except ExitCause Unit) :=
  if c.device then (configured c.configAgain.getPagesPath).map (·.map fun _ => ())
  else (configured c.configAgain.object).map (·.map fun _ => ())

/-- `write` has returned 0. -/
def wroteNone : Bool := c.zero && c.accepts = 0

/-- `write`, and what is logged of it. -/
def write (ls : List LogCall) : Except ExitCause Unit :=
  if c.reset then .error .sigpipe else logged c.time ls

/-- What the handler of a request logs, `route` being what `set_path`
made of the target. That of a PUT is left by an exception before it
logs. -/
def logs (file : Log.CStr) (zero : Bool) (route : Str) :
    Handler → List LogCall
  | .getMethod => (c.getResponse route).logs file zero c.laterPath c.fs c.pages
  | .postMethod => []
  | .headMethod => headLogs zero
  | .putMethod => []
  | .defaultMethod => defaultLogs file zero c.index

end Call

/-- What a handler leaves: the bytes put on the connection, the page's
descriptor if one was opened, the files, and the search's globals. -/
structure Answer where
  sent : Str
  page : Option Int
  store : Store
  utils : Utils

/-- The descriptor `try_open` leaves, if it is one. -/
def pageOf (fileno : Int) : Option Int := if 0 < fileno then some fileno else none

/-- The handlers, behind what `make_response` has done to the request;
`none` does not come back. -/
def Call.respond (c : Call) (store : Store) (utils : Utils) (p : HttpParse) :
    Handler → Option (Except ExitCause Answer)
  | .getMethod => andThen c.tryOpenConfig fun _ => some do
      let r := c.getResponse p.route
      let opened := (r.tryOpen c.laterPath c.fs).2
      let sent ← (r.written c.file c.time c.laterPath c.fs c.pages
        (fun status => sprintf c.heap (c.headerBuff status))
        c.accepts).mapError Stop.cause
      c.write [sentLog c.wroteNone r.route]
      .ok ⟨sent, pageOf opened.fileno, store, utils⟩
  | .postMethod =>
      some (.ok ⟨(PostResponse.new c.stray p.fileTypeStr).response, none, store,
        utils⟩)
  | .headMethod => some do
      let sent ← calls (headResponse c.statusText c.date c.heap c.accepts)
      c.write (headLogs c.wroteNone)
      .ok ⟨sent, none, store, utils⟩
  | .putMethod =>
      let r := PutResponse.new c.oldStatus p.route p.originData
      -- `try_write` has set the page data before it reads the configuration
      andThen (some (calls r.setPageData)) fun _ =>
      andThen (configured c.configAgain.getPagesPath) fun searchRoot => some do
        let out ← (r.put searchRoot c.stray c.statusText c.date c.accepts store
          utils).mapError .fault
        .ok ⟨out.sent, none, out.store, out.utils⟩
  | .defaultMethod =>
      andThen (some (calls (sprintf c.heap (c.headerBuff 500)))) fun _ =>
      andThen (configured (defaultResponse c.rounds c.index c.pageBuff
        c.pageBehind (c.headerBuff 500) c.accepts)) fun sent => some do
        c.write (defaultLogs c.file.text c.wroteNone c.index)
        .ok ⟨sent, none, store, utils⟩

/-- The pages path for the handlers that ask for it. -/
def Call.setPathConfig (c : Call) : Handler → Option (Except ExitCause Str)
  | .getMethod => configured c.config.getPagesPath
  | .putMethod => configured c.config.getPagesPath
  | _ => some (.ok [])

/-- `do_somthing`, with the response. -/
def Call.run (c : Call) (store : Store) (utils : Utils) :
    Option (Except ExitCause Answer) :=
  match parsed c.raw c.buff c.behind c.reads with
  | none => some (.error .exit)
  | some parse =>
      andThen (some (calls parse)) fun p =>
      andThen (some (logged c.time (parserLogs c.toolFile.text c.object p)))
        fun _ =>
      andThen (c.setPathConfig (dispatch p.requestMethod)) fun pagesPath =>
      andThen (some (calls (makeResponse pagesPath p))) fun (handler, p) =>
      c.respond store utils p handler

-- ============================================================== the server

/-- What `run` has in hand at the head of its loops. -/
structure RunState where
  sockfd : Int
  table : List Int
  interest : List Int
  batch : List Int
  store : Store
  utils : Utils
  accepted : Nat
  live : List (Int × Nat)
  answers : List (Nat × Str)

/-- The process. -/
inductive Proc
  | running (s : RunState)
  | ended (e : ExitCause)

/-- What happens next. -/
inductive Event
  /-- `epoll_wait` returns; `none` is -1. -/
  | wait (fds : Option (List Int))
  /-- The listening socket is ready, and `accept` answers; `prepared` is
  whether the calls of `fcntl` and `epoll_ctl` behind it succeed. -/
  | accept (fd : Option Int) (prepared : Bool)
  /-- A connection is ready. -/
  | request (c : Call)
  /-- SIGINT. -/
  | interrupt

namespace RunState

/-- The process before its first `epoll_wait`: `own` are the
descriptors open then, the listening one and epoll's among them. -/
def start (sockfd : Int) (own : List Int) (store : Store) (utils : Utils) :
    RunState :=
  ⟨sockfd, own, [sockfd], [], store, utils, 0, [], []⟩

/-- `close(fd)`. -/
def close (s : RunState) (fd : Int) : RunState :=
  { s with table := s.table.erase fd, interest := s.interest.erase fd }

/-- `open` has answered a descriptor. -/
def opened (s : RunState) (fd : Int) : RunState := { s with table := fd :: s.table }

/-- `accept` has answered a descriptor that epoll now watches. -/
def watch (s : RunState) (fd : Int) : RunState :=
  { s with
    table := fd :: s.table
    interest := fd :: s.interest
    accepted := s.accepted + 1
    live := (fd, s.accepted) :: s.live }

/-- A connection is closed, with what was put on it. -/
def closeConn (s : RunState) (fd : Int) (sent : Str) : RunState :=
  { s.close fd with
    live := s.live.eraseP (·.1 = fd)
    answers := s.answers ++ (s.live.find? (·.1 = fd)).toList.map fun x =>
      (x.2, sent) }

/-- What handling a request has done to the descriptors and the
files. -/
def handled (s : RunState) (fd : Int) (a : Answer) : RunState :=
  let s := { s with store := a.store, utils := a.utils }
  match a.page with
  | none => s.closeConn fd a.sent
  | some page => ((s.opened page).closeConn fd a.sent).close page

/-- Whether `open` can answer this. -/
def canOpen (s : RunState) (fileno : Int) : Bool :=
  fileno = -1 || 0 < fileno && fileno ∉ s.table

/-- The loop takes the next event. -/
def take (s : RunState) (rest : List Int) : RunState := { s with batch := rest }

/-- One step. -/
def step : Proc → Event → Option Proc
  | .ended _, _ => none
  | .running _, .interrupt => some (.ended .exit)
  | .running s, .wait fds =>
      match s.batch, fds with
      | [], none => some (.ended .exit)
      | [], some fds =>
          if fds ≠ [] ∧ fds.length ≤ maxEvent ∧ fds.Nodup
              ∧ ∀ fd ∈ fds, fd ∈ s.interest
          then some (.running (s.take fds)) else none
      | _ :: _, _ => none
  | .running s, .accept fd prepared =>
      match s.batch with
      | [] => none
      | n :: rest =>
          if n = s.sockfd then
            match fd with
            | none => some (.ended .exit)
            | some fd =>
                if fd < 0 ∨ fd ∈ s.table then none
                else if prepared then some (.running ((s.take rest).watch fd))
                else some (.ended .exit)
          else none
  | .running s, .request c =>
      match s.batch with
      | [] => none
      | n :: rest =>
          if n ≠ s.sockfd ∧ s.canOpen c.firstOpen.1 ∧ s.canOpen c.secondOpen.1 then
            -- `read` on a descriptor that is not open fails
            let c := if n ∈ s.table then c else { c with read := none }
            (c.run s.store s.utils).map fun r =>
              match r with
              | .error e => .ended e
              | .ok a => .running ((s.take rest).handled n a)
          else none

end RunState

end TrashyServer.Server
