/-
Which routes fit the arrays they are copied and printed into.

Nothing between the request and a response looks at the length of a
route: `set_path` puts the pages path in front of it, and there it goes.
A GET copies it into `parse_buff_`, and into `logging_char_buff` when
the socket takes nothing; a PUT prints it into `http_header_buff`. Each
array has its own room for it (`routeFits_iff`), and `texts_fit_iff`
says which requests leave it: the maximum for an URI, `MAX_URI_LEN`, is
read by nothing.

The message of a GET is made by the loop of `Log`, which may read the
route as a format. It then puts into the line what it finds where no
argument was passed, a text of any length; so a route that fits is also
one that the loop takes as it is (`logNotSent_fits_iff`).
-/
import TrashyServer.Server.Proofs.Deliver
import TrashyServer.Server.Put
import TrashyServer.Tool.Proofs.Construct

namespace TrashyServer.Server

open Tool
open Config (strcpy)
open Log (Literal)

/-- A text that is stored if there is room for it. -/
theorem store_fits_iff {ε : Type} {room : Prop} [Decidable room] (text : Str)
    (fault : ε) :
    (if room then .ok text else .error fault : Except ε Str) ≠ .error fault
      ↔ room := by
  split
  · next hroom => exact iff_of_true (fun h => nomatch h) hroom
  · next hroom => exact iff_of_false (fun h => h rfl) hroom

-- ================================================================= a GET

/-- `parse_buff_` has room for the route and its NUL. -/
theorem getTextFileT_fits_iff (route : Str) :
    getTextFileT route ≠ .error .vectorRange ↔ strlen route < maxline := by
  unfold getTextFileT strcpy
  by_cases hfit : strlen route < maxline
  · rw [if_pos hfit, ok_bind]
    refine iff_of_true ?_ hfit
    dsimp only
    unfold substr
    split
    · exact fun h => nomatch h
    · exact fun h => nomatch h
  · rw [if_neg hfit]
    exact iff_of_false (fun h => h rfl) hfit

-- ================================================================= a PUT

/-- `http_header_buff` has room for the header. -/
theorem header_fits_iff (statusText : Nat → Str) (date : Str)
    (r : PutResponse) :
    r.header statusText date ≠ .error .vectorRange
      ↔ strlen r.route + (statusText r.responseStatus).length + date.length + 76
        < 1024 := by
  have hlen : (putHeader (statusText r.responseStatus) date r.route).length
      = strlen r.route + (statusText r.responseStatus).length + date.length
        + 76 := by
    have hversion : (bytes "HTTP/1.1 ").length = 9 := rfl
    have hserver : (bytes
        "\r\nServer: My server/2.3.3 (Debain OS)\r\nContent-Location:"
        ).length = 56 := rfl
    have hdate : (bytes "\r\nDate:").length = 7 := rfl
    have hend : (bytes "\r\n\r\n").length = 4 := rfl
    unfold putHeader
    simp only [List.length_append, hversion, hserver, hdate, hend]
    unfold strlen
    omega
  unfold PutResponse.header
  dsimp only
  rw [hlen]
  apply store_fits_iff

/-- It is the header that `response` writes a part of, once the file is
written. -/
theorem put_eq (pagesPath : Str) (stray : UInt8) (statusText : Nat → Str)
    (date : Str) (accepts : Nat) (store : Store) (utils : Dir.Utils)
    (r : PutResponse) :
    r.put pagesPath stray statusText date accepts store utils
      = (do
        let (r, store, utils) ← r.tryWrite pagesPath stray store utils
        let httpHeaderBuff ← library (r.header statusText date)
        .ok ⟨r, store, utils, (httpHeaderBuff.take 8).take accepts⟩) := by
  unfold PutResponse.put
  cases r.tryWrite pagesPath stray store utils with
  | error e => rfl
  | ok written =>
      obtain ⟨r', store', utils'⟩ := written
      show (if _ then _ else _) = (library (r'.header statusText date) >>= _)
      unfold PutResponse.header
      dsimp only
      split
      · rfl
      · rfl

-- =========================================================== either of them

section

variable (statusText : Nat → Str) (date : Str) (time : Log.CStr)

/-- Where a handler puts the route, there is room for it: for a GET
whatever else the response holds, the message being printed, for a PUT
whatever `try_write` has made of the response but its route. -/
def RouteFits (handler : Handler) (route : Str) : Prop :=
  match handler with
  | .getMethod => getTextFileT route ≠ .error .vectorRange
      ∧ ∀ r : GetResponse, r.route = route →
        ∃ line, r.logNotSent time = .ok line
  | .putMethod => ∀ r : PutResponse, r.route = route →
      r.header statusText date ≠ .error .vectorRange
  | _ => True

/-- The route is within the room the handler has for it. -/
def RouteWithin (handler : Handler) (route : Str) : Prop :=
  match handler with
  | .getMethod => strlen route < maxline
      ∧ Literal (cut route) ∧ strlen route + time.val.length + 43 < 4096
  | .putMethod => ∀ responseStatus : Nat,
      strlen route + (statusText responseStatus).length + date.length + 76
        < 1024
  | _ => True

theorem routeFits_iff (handler : Handler) (route : Str) :
    RouteFits statusText date time handler route
      ↔ RouteWithin statusText date time handler route := by
  cases handler with
  | getMethod =>
      apply and_congr (getTextFileT_fits_iff route)
      constructor
      · intro h
        exact (logNotSent_fits_iff time _).mp (h ⟨route, 0, 0, []⟩ rfl)
      · intro h r hr
        apply (logNotSent_fits_iff time r).mpr
        rw [hr]
        exact h
  | putMethod =>
      constructor
      · intro h responseStatus
        exact (header_fits_iff statusText date _).mp
          (h ⟨route, responseStatus, [], [], []⟩ rfl)
      · intro h r hr
        apply (header_fits_iff statusText date r).mpr
        rw [hr]
        exact h r.responseStatus
  | postMethod | headMethod | defaultMethod => exact Iff.rfl

/-- A handler that asks for no path name has no use for the route. -/
theorem routeWithin_of_not {m : Option Method} (h : ¬ NeedsPath m)
    (route : Str) : RouteWithin statusText date time (dispatch m) route := by
  unfold NeedsPath at h
  rw [not_or] at h
  cases m with
  | none => trivial
  | some m =>
      cases m with
      | get => exact absurd rfl h.1
      | put => exact absurd rfl h.2
      | delete | post | head => trivial

/-- Every text made from the request in this memory fits its array. -/
def TextsFit (pagesPath : Str) (raw : Raw) (buff : Terminated) : Prop :=
  ∀ handler p,
    (httpParse raw buff.1 >>= makeResponse pagesPath) = .ok (handler, p) →
      RouteFits statusText date time handler p.route

end

-- ============================================================= the requests

/-- When every text made from a request fits its array. For every
NUL-terminated memory, every pages path, every contents of the members
without an initialiser, of the status text and the date that the header
is printed with, and of the time in the log: no array is left exactly
when, for a request that an object is made from and whose target is not
empty, the pages path with the page's name behind it is within the room
its method's handler has for it. -/
theorem texts_fit_iff (statusText : Nat → Str) (date : Str) (time : Log.CStr)
    (pagesPath : Str) (raw : Raw) (buff : Terminated) :
    TextsFit statusText date time pagesPath raw buff
      ↔ ∀ t, target buff.text = some t → t.count question ≠ 1 →
          (∀ line ∈ lines buff.text, ¬ CutsPastEnd line) → t ≠ [] →
          RouteWithin statusText date time
            (dispatch ((lastNamed (lines buff.text)).or raw.requestMethod))
            (pagesPath ++ pageName t) := by
  have hmade : ∀ {p : HttpParse}, httpParse raw buff.1 = .ok p →
      ∀ {t : Str}, target buff.text = some t → t = p.route := by
    intro p hp t ht
    obtain ⟨-, hroute, -⟩ := httpParse_ok buff.2 hp
    exact Option.some.inj (ht.symm.trans hroute)
  have hmethod : ∀ {p : HttpParse}, httpParse raw buff.1 = .ok p →
      p.requestMethod = (lastNamed (lines buff.text)).or raw.requestMethod :=
    fun hp => (httpParse_ok buff.2 hp).2.2
  constructor
  · intro h t ht hone hcut hne
    obtain ⟨p, hp⟩ := (httpParse_ok_iff raw buff.2).mpr ⟨t, ht, hone, hcut⟩
    obtain rfl := hmade hp ht
    obtain ⟨⟨handler, q⟩, hq⟩ := makeResponse_ok_iff.mpr
      (fun _ => hne : NeedsPath p.requestMethod → p.route ≠ [])
    obtain ⟨rfl, hname⟩ := makeResponse_ok hq
    rw [← hmethod hp]
    by_cases hneeds : NeedsPath p.requestMethod
    · rw [← hname hneeds]
      apply (routeFits_iff statusText date time _ _).mp
      apply h
      rw [hp, ok_bind, hq]
    · exact routeWithin_of_not statusText date time hneeds _
  · intro h handler q hq
    apply (routeFits_iff statusText date time handler q.route).mpr
    cases hp : httpParse raw buff.1 with
    | error e =>
        rw [hp, error_bind] at hq
        cases hq
    | ok p =>
        rw [hp, ok_bind] at hq
        obtain ⟨t, ht, hone, hcut⟩ := (httpParse_ok_iff raw buff.2).mp ⟨p, hp⟩
        obtain rfl := hmade hp ht
        obtain ⟨rfl, hname⟩ := makeResponse_ok hq
        by_cases hneeds : NeedsPath p.requestMethod
        · have hne := makeResponse_ok_iff.mp ⟨_, hq⟩ hneeds
          have hwithin := h p.route ht hone hcut hne
          rwa [← hmethod hp, ← hname hneeds] at hwithin
        · exact routeWithin_of_not statusText date time hneeds _

/-- A PUT of a thousand bytes of path, far fewer than a request may
have, with the usual status and date. -/
theorem long_path_overflows :
    ∃ buff : Terminated, buff.text.length < maxline
      ∧ ¬ TextsFit (fun _ => bytes "201 Created")
        (bytes "Sun, 06 Nov 1994 08:49:37 GMT")
        ⟨bytes "Sun Nov  6 08:49:37 1994", by decide⟩
        (bytes "www/") ⟨0, none⟩ buff := by
  have hmem : nul ∈ bytes "PUT /" ++ List.replicate 1000 97
      ++ bytes " HTTP/1.1\r\n\r\n" ++ [nul] :=
    List.mem_append_right _ (List.mem_singleton_self nul)
  have hshort : (cut (bytes "PUT /" ++ List.replicate 1000 97
      ++ bytes " HTTP/1.1\r\n\r\n" ++ [nul])).length < maxline := by
    decide +kernel
  refine ⟨⟨_, hmem⟩, hshort, ?_⟩
  intro h
  have hrun : (httpParse ⟨0, none⟩ (bytes "PUT /" ++ List.replicate 1000 97
        ++ bytes " HTTP/1.1\r\n\r\n" ++ [nul])
      >>= makeResponse (bytes "www/"))
      = .ok (.putMethod, ⟨0, bytes "PUT /" ++ List.replicate 1000 97
          ++ bytes " HTTP/1.1\r\n\r\n", some .put,
        bytes "www/" ++ List.replicate 1000 97, [], [], []⟩) := by
    decide +kernel
  apply h _ _ hrun (.new 201 (bytes "www/" ++ List.replicate 1000 97) []) rfl
  decide +kernel

end TrashyServer.Server
