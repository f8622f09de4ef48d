/-
The status table (`STATUS_CODE` and the three functions `status_code` of
src/status_code.h).

`status_codes` makes the table anew at every call, and two of the
lookups give out a pointer into a table that is gone when they return.
`statusCodeNum` is the text that the one of them by the number pointed
at; what is found there later is up to whoever asks. Nothing calls the
one by the enumerator.
-/
import TrashyServer.Str

namespace TrashyServer.Server

/-- `STATUS_CODE`. -/
inductive StatusCode
  | unknown
  | informationContinue
  | informationSwithProtocols
  | informationProcrssing
  | successOk
  | successCreated
  | successAccepted
  | successNonAuthoritativeInformation
  | successNoContent
  | successResetContent
  | successPartialContent
  | redirectionMultpleChoices
  | redirectionMovedPermanently
  | redirectionFound
  | redirectionSeeOther
  | redirectionNotModified
  | redirectionUseProxy
  | redirectionUnused
  | redirectionTemporaryRedirect
  | clientErrorBadRequest
  | clientErrorUnauthorized
  | clientErrorPaymentRequired
  | clientErrorForbidden
  | clientErrorNotFound
  | clientErrorMethodNotAllowed
  | clientErrorNotAcceptable
  | clientErrorProxyAuthenticationRequired
  | clientErrorRequestTimeout
  | clientErrorConflict
  | clientErrorGone
  | clientErrorLengthRequired
  | clientErrorPreconditionFailed
  | clientErrorRequestEntityTooLarge
  | clientErrorRequestUriTooLong
  | clientErrorUnsupportedMediaType
  | clientErrorRequestedRangeNotSatisfiable
  | clientErrorExpectationFailed
  | serverErrorInternalServerError
  | serverErrorNotImplemented
  | serverErrorBadGateway
  | serverErrorServiceUnavailable
  | serverErrorGatewayTimeout
  | serverErrorHttpVersionNotSupported
deriving DecidableEq

/-- The number of an enumerator. -/
def StatusCode.value : StatusCode → Nat
  | .unknown => 0
  | .informationContinue => 100
  | .informationSwithProtocols => 101
  | .informationProcrssing => 102
  | .successOk => 200
  | .successCreated => 201
  | .successAccepted => 202
  | .successNonAuthoritativeInformation => 203
  | .successNoContent => 204
  | .successResetContent => 205
  | .successPartialContent => 206
  | .redirectionMultpleChoices => 300
  | .redirectionMovedPermanently => 301
  | .redirectionFound => 302
  | .redirectionSeeOther => 303
  | .redirectionNotModified => 304
  | .redirectionUseProxy => 305
  | .redirectionUnused => 306
  | .redirectionTemporaryRedirect => 307
  | .clientErrorBadRequest => 400
  | .clientErrorUnauthorized => 401
  | .clientErrorPaymentRequired => 402
  | .clientErrorForbidden => 403
  | .clientErrorNotFound => 404
  | .clientErrorMethodNotAllowed => 405
  | .clientErrorNotAcceptable => 406
  | .clientErrorProxyAuthenticationRequired => 407
  | .clientErrorRequestTimeout => 408
  | .clientErrorConflict => 409
  | .clientErrorGone => 410
  | .clientErrorLengthRequired => 411
  | .clientErrorPreconditionFailed => 412
  | .clientErrorRequestEntityTooLarge => 413
  | .clientErrorRequestUriTooLong => 414
  | .clientErrorUnsupportedMediaType => 415
  | .clientErrorRequestedRangeNotSatisfiable => 416
  | .clientErrorExpectationFailed => 417
  | .serverErrorInternalServerError => 500
  | .serverErrorNotImplemented => 501
  | .serverErrorBadGateway => 502
  | .serverErrorServiceUnavailable => 503
  | .serverErrorGatewayTimeout => 504
  | .serverErrorHttpVersionNotSupported => 505

/-- `status_codes`. -/
def statusCodes : List (StatusCode × Str) := [
  (.unknown, bytes ""),
  (.informationContinue, bytes "100 Continue"),
  (.informationSwithProtocols, bytes "101 Switching Protocols"),
  (.informationProcrssing, bytes "102 Processing"),
  (.successOk, bytes "200 OK"),
  (.successCreated, bytes "201 Created"),
  (.successAccepted, bytes "202 Accepted"),
  (.successNonAuthoritativeInformation, bytes "203 Non-Authoritative Information"),
  (.successNoContent, bytes "204 No Content"),
  (.successResetContent, bytes "205 Reset Content"),
  (.successPartialContent, bytes "206 Partial Content"),
  (.redirectionMultpleChoices, bytes "300 Multiple Choices"),
  (.redirectionMovedPermanently, bytes "301 Moved Permanently"),
  (.redirectionFound, bytes "302 Found"),
  (.redirectionSeeOther, bytes "303 See Other"),
  (.redirectionNotModified, bytes "304 Not Modified"),
  (.redirectionUseProxy, bytes "305 Use Proxy"),
  (.redirectionUnused, bytes "306 Unused"),
  (.redirectionTemporaryRedirect, bytes "307 Temporary Redirect"),
  (.clientErrorBadRequest, bytes "400 Bad Request"),
  (.clientErrorUnauthorized, bytes "401 Unauthorized"),
  (.clientErrorPaymentRequired, bytes "402 Payment Required"),
  (.clientErrorForbidden, bytes "403 Forbidden"),
  (.clientErrorNotFound, bytes "404 Not Found"),
  (.clientErrorMethodNotAllowed, bytes "405 Method Not Allowed"),
  (.clientErrorNotAcceptable, bytes "406 Not Acceptable"),
  (.clientErrorProxyAuthenticationRequired, bytes "407 Proxy Authentication Required"),
  (.clientErrorRequestTimeout, bytes "408 Request Timeout"),
  (.clientErrorConflict, bytes "409 Conflict"),
  (.clientErrorGone, bytes "410 Gone"),
  (.clientErrorLengthRequired, bytes "411 Length Required"),
  (.clientErrorPreconditionFailed, bytes "412 Precondition Failed"),
  (.clientErrorRequestEntityTooLarge, bytes "413 Request Entity Too Large"),
  (.clientErrorRequestUriTooLong, bytes "414 Request-URI Too Long"),
  (.clientErrorUnsupportedMediaType, bytes "415 Unsupported Media Type"),
  (.clientErrorRequestedRangeNotSatisfiable,
    bytes "416 Requested Range Not Satisfiable"),
  (.clientErrorExpectationFailed, bytes "417 Expectation Failed"),
  (.serverErrorInternalServerError, bytes "500 Internal Server Error"),
  (.serverErrorNotImplemented, bytes "501 Not Implemented"),
  (.serverErrorBadGateway, bytes "502 Bad Gateway"),
  (.serverErrorServiceUnavailable, bytes "503 Service Unavailable"),
  (.serverErrorGatewayTimeout, bytes "504 Gateway Timeout"),
  (.serverErrorHttpVersionNotSupported, bytes "505 HTTP Version Not Supported")]

/-- `status_code`, by the text. -/
def statusCodeOf (statusStr : Str) : StatusCode :=
  match statusCodes.find? (·.2 = statusStr) with
  | some statusCode => statusCode.1
  | none => .unknown

/-- `status_code`, by the number. -/
def statusCodeNum (codeNum : Nat) : Str :=
  match statusCodes.find? (·.1.value = codeNum) with
  | some statusCode => statusCode.2
  | none => []

end TrashyServer.Server
