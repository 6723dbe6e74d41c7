import Asyncd.Qlibc
import Asyncd.Evbuffer

/-!
# The HTTP state of a connection

`AdHttp` is `struct ad_http_s`, and `httpNew` the fresh state.  The fields `host` and `domain` of the
request, which nothing sets or reads, are left out; `response.outbuf` is the out buffer of the
connection, which the functions that write to it take as an argument.
-/

open CString

namespace Asyncd

/-! ## Constants -/

/-- `HTTP_CRLF`. -/
def httpCrlf : Bytes := bytes "\r\n"

def httpProtocol09 : Bytes := bytes "HTTP/0.9"
def httpProtocol10 : Bytes := bytes "HTTP/1.0"
def httpProtocol11 : Bytes := bytes "HTTP/1.1"

/-- `HTTP_DEF_CONTENTTYPE`. -/
def httpDefContenttype : Bytes := bytes "application/octet-stream"

def contentLength : Bytes := bytes "Content-Length"
def transferEncoding : Bytes := bytes "Transfer-Encoding"
def chunked : Bytes := bytes "chunked"

/-- Return values of user callbacks (`AD_OK` and so on). -/
def adOk : ℤ := 0
def adTakeover : ℤ := 1
def adDone : ℤ := 2
def adClose : ℤ := 3

/-- `enum ad_http_request_status_e`. -/
inductive ReqStatus
  | init
  | requestlineDone
  | headerDone
  | done
  | error
  deriving DecidableEq, Repr

/-- The integer behind a request status. -/
def ReqStatus.toInt : ReqStatus → ℤ
  | init => 0
  | requestlineDone => 1
  | headerDone => 2
  | done => 3
  | error => 4

/-! ## The state -/

/-- `ad_http_s.request`. -/
structure HttpRequest where
  status : ReqStatus
  inbuf : Bytes
  method : Option Bytes
  uri : Option Bytes
  httpver : Option Bytes
  path : Option Bytes
  query : Option Bytes
  headers : Qlisttbl
  contentlength : ℤ
  bodyin : ℕ
  deriving DecidableEq

/-- `ad_http_s.response`. -/
structure HttpResponse where
  frozenHeader : Bool
  code : ℤ
  reason : Option Bytes
  headers : Qlisttbl
  contentlength : ℤ
  bodyout : ℕ
  deriving DecidableEq

/-- `struct ad_http_s`. -/
structure AdHttp where
  request : HttpRequest
  response : HttpResponse
  deriving DecidableEq

/-- What `http_new` returns when its allocations succeed: cleared memory, empty containers, and the
values set at its end. -/
def freshHttp : AdHttp where
  request :=
    { status := .init, inbuf := [], method := none, uri := none, httpver := none, path := none,
      query := none, headers := .empty, contentlength := -1, bodyin := 0 }
  response :=
    { frozenHeader := false, code := 0, reason := none, headers := .empty, contentlength := -1,
      bodyout := 0 }

/-- `http_new`; `alloc` tells whether its allocations succeed. -/
def httpNew (alloc : Bool) : Option AdHttp := if alloc then some freshHttp else none

namespace AdHttp

/-- `http->request.status = st`. -/
def setStatus (http : AdHttp) (st : ReqStatus) : AdHttp := { http with request.status := st }

/-- `http->request.headers->putstr(http->request.headers, name, value)`. -/
def putHeader (http : AdHttp) (name value : Bytes) : AdHttp :=
  { http with request.headers := http.request.headers.putstr name value }

/-- Replace the content of `request.inbuf`. -/
def setInbuf (http : AdHttp) (b : Bytes) : AdHttp := { http with request.inbuf := b }

@[simp] theorem setStatus_status (http : AdHttp) (st : ReqStatus) :
    (http.setStatus st).request.status = st := rfl
@[simp] theorem setStatus_inbuf (http : AdHttp) (st : ReqStatus) :
    (http.setStatus st).request.inbuf = http.request.inbuf := rfl
@[simp] theorem setStatus_headers (http : AdHttp) (st : ReqStatus) :
    (http.setStatus st).request.headers = http.request.headers := rfl
@[simp] theorem setStatus_method (http : AdHttp) (st : ReqStatus) :
    (http.setStatus st).request.method = http.request.method := rfl
@[simp] theorem setStatus_contentlength (http : AdHttp) (st : ReqStatus) :
    (http.setStatus st).request.contentlength = http.request.contentlength := rfl
@[simp] theorem setStatus_bodyin (http : AdHttp) (st : ReqStatus) :
    (http.setStatus st).request.bodyin = http.request.bodyin := rfl

@[simp] theorem setInbuf_status (http : AdHttp) (b : Bytes) :
    (http.setInbuf b).request.status = http.request.status := rfl
@[simp] theorem setInbuf_inbuf (http : AdHttp) (b : Bytes) :
    (http.setInbuf b).request.inbuf = b := rfl
@[simp] theorem setInbuf_headers (http : AdHttp) (b : Bytes) :
    (http.setInbuf b).request.headers = http.request.headers := rfl
@[simp] theorem setInbuf_contentlength (http : AdHttp) (b : Bytes) :
    (http.setInbuf b).request.contentlength = http.request.contentlength := rfl
@[simp] theorem setInbuf_bodyin (http : AdHttp) (b : Bytes) :
    (http.setInbuf b).request.bodyin = http.request.bodyin := rfl
@[simp] theorem setInbuf_setInbuf (http : AdHttp) (b c : Bytes) :
    (http.setInbuf b).setInbuf c = http.setInbuf c := rfl
@[simp] theorem setInbuf_self (http : AdHttp) : http.setInbuf http.request.inbuf = http := rfl

end AdHttp

end Asyncd
