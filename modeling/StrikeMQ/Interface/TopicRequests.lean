import StrikeMQ.Interface.RequestTarget
import StrikeMQ.Model.HttpRoutes

/-!
# Requests for a topic

The request lines by which a client asks for a topic or for its messages, with the topic's name
percent-encoded, and what it means that such a request gets to a handler. Headers and a body come
to a request from elsewhere and have no part in this.
-/

set_option autoImplicit false

namespace StrikeMQ.Interface

open StrikeMQ.Lib StrikeMQ.Model StrikeMQ.Model.HttpServer

/-- What may stand behind the `?` of a request line. -/
abbrev QueryText := { q : Bytes // (0x20 : UInt8) ∉ q }

def queryPart : Option QueryText → Bytes
  | none => []
  | some q => 0x3f :: q.val

/-- The line for a topic, or for what is `below` it. -/
def topicLine (style : UriStyle) (query : Option QueryText) (method name below : Bytes) : Bytes :=
  method ++ 0x20 :: (ascii "/v1/topics/" ++ style.encode false name ++ below ++ queryPart query ++
    0x20 :: ascii "HTTP/1.1")

/-- The line is accepted, and the request goes to the handler, for all handlers and whatever
headers and body the request has. -/
def Dispatches (line : Bytes)
    (handler : (σ : Type) → HttpHandlers σ → HttpRequest → σ → HttpResponse × σ) : Prop :=
  ∃ req, parseRequestLine line = some req ∧
    ∀ (headers : StringMap) (body : Bytes) (σ : Type) (hs : HttpHandlers σ) (s : σ),
      routeRequest hs { req with headers := headers, body := body } s =
        handler σ hs { req with headers := headers, body := body } s

end StrikeMQ.Interface
