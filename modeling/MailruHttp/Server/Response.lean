import MailruHttp.Foundation.Bytes

/-! Responses as `server/response.cpp` builds them. -/

namespace MailruHttp.Server

structure Response where
  mCode : Int := 0
  mBody : List UInt8 := []
  deriving DecidableEq, Repr

/-- The pointer `body()` returns shows the whole message. -/
def Response.body (response : Response) : List UInt8 := response.mBody

/-- The size of the message, converted to the `int` the function returns. -/
def Response.length (response : Response) : Int := toInt response.mBody.length

def Response.code (response : Response) : Int := response.mCode

/-- A number as an output stream prints it. -/
def decimal (n : Int) : List UInt8 :=
  (if n < 0 then [byte '-'] else []) ++ (Nat.toDigits 10 n.natAbs).map byte

def makeResponse (code : Int) (reason body : List UInt8) : Response where
  mCode := code
  mBody :=
    bytes "HTTP/1.0 " ++ decimal code ++ bytes " " ++ reason ++ bytes "\r\n" ++
    bytes "Connection: close\r\n" ++
    bytes "Content-type: text/html\r\n" ++
    bytes "Content-length: " ++ decimal body.length ++ bytes "\r\n\r\n" ++
    body

def respond400 : Response :=
  makeResponse 400 (bytes "Bad Request")
    (bytes "Your request was so bad, that we could not even parse it")

def respond404 : Response :=
  makeResponse 404 (bytes "Not Found") (bytes "Nothing is found. This is sad")

def respond200 (body : List UInt8) : Response := makeResponse 200 (bytes "OK") body

/-- The buffer handed to `uv_write`: the message and the length as a `size_t`. -/
structure UvBuf where
  base : List UInt8
  len : Nat
  deriving DecidableEq, Repr

def Response.outBuf (response : Response) : UvBuf := ⟨response.body, toSizeT response.length⟩

end MailruHttp.Server
