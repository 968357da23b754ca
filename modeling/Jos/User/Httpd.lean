import Jos.Shared.Program
import Jos.Kern.Mmu

namespace Jos.User

open Jos.Kern (Byte)

def bytes (s : String) : List Byte := s.toList.map fun c => BitVec.ofNat 8 c.toNat

/-- A pointer to a string, and the text of the string. Blocks of `malloc` do not overlap, so that
each keeps its text. -/
structure CString where
  addr : Nat
  text : List Byte

structure HttpRequest where
  sock : Int
  url : CString
  version : CString

structure OpenFile where
  isdir : Bool
  contents : List Byte
  -- `off_t` has 32 bits.
  small : contents.length < 2 ^ 31
  statFails : Bool
  readFails : Bool

structure Stat where
  size : Int
  isdir : Bool

structure World where
  -- The result of `open` for a path; `none` is an error.
  files : List Byte → Option OpenFile
  -- The result of the `k`-th `write` to the socket, for `n` bytes.
  write : Nat → Nat → Int
  -- The result of the `k`-th `malloc`, for `n` bytes.
  malloc : Nat → Nat → Nat
  -- What `st` holds when `send_file` is entered.
  junk : Stat

structure Stack where
  -- What `read` has stored; `none` if it fails.
  received : Option (List Byte)
  above : List Byte
  -- The same after `req->url` has been stored, which may be on that part of the stack.
  above' : List Byte

structure Client where
  req : HttpRequest
  -- The offsets from `buffer` that `http_request_parse` has read.
  reads : List Nat
  -- What `malloc` has returned.
  blocks : List Nat
  -- What has gone to the socket, write by write.
  sent : List (List Byte)
  -- What has been passed to `free`.
  freed : List Nat

namespace Httpd

inductive Stop where
  | fault
  | die
  | panic
  deriving DecidableEq

abbrev HttpM := EStateM Stop Client

def buffsize : Nat := 512

def eBadReq : Int := 1000

def headers : List (Int × List Byte) := [(200, bytes "HTTP/1.0 200 OK\r\nServer: jhttpd/0.1\r\n")]

def errors : List (Int × List Byte) := [(400, bytes "Bad Request"), (404, bytes "Not Found")]

section Library

def printnum (base : Nat) : Nat → Nat → List Byte
  | 0, _ => []
  | fuel + 1, num =>
    (if base ≤ num then printnum base fuel (num / base) else []) ++
      [(bytes "0123456789abcdef").getD (num % base) 0]

def decimal (num : Int) : List Byte :=
  if num < 0 then bytes "-" ++ printnum 10 20 (-num).toNat else printnum 10 20 num.toNat

def touch (offset : Nat) : HttpM Unit := modify fun s => { s with reads := s.reads ++ [offset] }

def strncmp : List Byte → Nat → List Byte → HttpM Int
  | _, _, [] => pure 0
  | [], p, _ :: _ => do
    touch p
    throw .fault
  | b :: memory, p, c :: q => do
    touch p
    if b ≠ 0 ∧ b = c then strncmp memory (p + 1) q else pure (b.toNat - c.toNat)

def malloc (w : World) (n : Nat) : HttpM Nat := fun s =>
  .ok (w.malloc s.blocks.length n) { s with blocks := s.blocks ++ [w.malloc s.blocks.length n] }

def free (v : Nat) : HttpM Unit := modify fun s => { s with freed := s.freed ++ [v] }

def write (w : World) (data : List Byte) : HttpM Int := fun s =>
  .ok (w.write s.sent.length data.length)
    { s with sent := s.sent ++ [data.take (w.write s.sent.length data.length).toNat] }

def fstat (fd : Option OpenFile) (st : Stat) : Int × Stat :=
  match fd with
  | none => (-1, st)
  | some file => if file.statFails then (-1, ⟨0, false⟩) else (0, ⟨file.contents.length, file.isdir⟩)

def read (fd : Option OpenFile) (n : Nat) : Option (List Byte) :=
  match fd with
  | none => none
  | some file => if file.readFails then none else some (file.contents.take n)

end Library

def reqFree : HttpM Unit := do
  let s ← get
  free s.req.url.addr
  free s.req.version.addr

def sendHeader (w : World) (code : Int) : HttpM Int :=
  match headers.find? fun h => h.1 = code with
  | none => pure (-1)
  | some (_, header) => do
    let r ← write w header
    if r ≠ header.length then throw .die else pure 0

def sendData (w : World) (fd : Option OpenFile) : HttpM Int :=
  match read fd buffsize with
  | none => pure (-1)
  | some buffer => do
    let r ← write w buffer
    if r ≠ buffer.length then throw .die else pure (-1)

def sendText (w : World) (size : Nat) (text : List Byte) : HttpM Int :=
  if size - 1 < text.length then throw .panic
  else do
    let r ← write w text
    if r ≠ text.length then pure (-1) else pure 0

def sendSize (w : World) (size : Int) : HttpM Int :=
  sendText w 64 (bytes "Content-Length: " ++ decimal size ++ bytes "\r\n")

def mimeType : List Byte := bytes "text/html"

def sendContentType (w : World) : HttpM Int :=
  sendText w 128 (bytes "Content-Type: " ++ mimeType ++ bytes "\r\n")

def sendHeaderFin (w : World) : HttpM Int := do
  let r ← write w (bytes "\r\n")
  if r ≠ 2 then pure (-1) else pure 0

def skipTo (c : Byte) : List Byte → Nat → HttpM Nat
  | [], request => do
    touch request
    throw .fault
  | b :: memory, request => do
    touch request
    if b ≠ 0 ∧ b ≠ c then skipTo c memory (request + 1) else pure request

-- A copy of `len` bytes at `start` into a new block. Through a null pointer the first store faults.
def copyString (w : World) (memory : List Byte) (start len : Nat) : HttpM CString := do
  let v ← malloc w (len + 1)
  if v = 0 then throw .fault
  else do
    modify fun s => { s with reads := s.reads ++ List.range' start len }
    pure ⟨v, (memory.drop start).take len⟩

def parseVersion (w : World) (memory : List Byte) (request : Nat) : HttpM Int := do
  let line ← skipTo 10 (memory.drop request) request
  let version ← copyString w memory request (line - request)
  modify fun s => { s with req := { s.req with version := version } }
  pure 0

def parseUrl (w : World) (memory memory' : List Byte) : HttpM Int := do
  let space ← skipTo 32 (memory.drop 4) 4
  let url ← copyString w memory 4 (space - 4)
  modify fun s => { s with req := { s.req with url := url } }
  parseVersion w memory' (space + 1)

def httpRequestParse (w : World) (memory memory' : List Byte) : HttpM Int := do
  let order ← strncmp memory 0 (bytes "GET ")
  if order ≠ 0 then pure (-eBadReq) else parseUrl w memory memory'

def errorText (code : Int) (msg : List Byte) : List Byte :=
  bytes "HTTP/1.0 " ++ decimal code ++ bytes " " ++ msg ++
    bytes "\r\nServer: jhttpd/0.1\r\nConnection: closeContent-type: text/html\r\n\r\n<html><body><p>" ++
    decimal code ++ bytes " - " ++ msg ++ bytes "</p></body></html>\r\n"

def sendError (w : World) (code : Int) : HttpM Int :=
  match errors.find? fun e => e.1 = code with
  | none => pure (-1)
  | some (code, msg) => do
    let r ← write w (errorText code msg)
    if r ≠ (errorText code msg).length then pure (-1) else pure 0

def sendFound (w : World) (fd : Option OpenFile) (size : Int) : HttpM Int := do
  let r ← sendHeader w 200
  if r < 0 then pure r
  else do
    let r ← sendSize w size
    if r < 0 then pure r
    else do
      let r ← sendContentType w
      if r < 0 then pure r
      else do
        let r ← sendHeaderFin w
        if r < 0 then pure r else sendData w fd

def ignore (call : HttpM Int) : HttpM Unit := do
  let _ ← call
  pure ()

def notFoundIf (w : World) (failed : Bool) : HttpM Unit :=
  if failed then ignore (sendError w 404) else pure ()

def sendFile (w : World) : HttpM Int := do
  let s ← get
  let fd := w.files s.req.url.text
  notFoundIf w fd.isNone
  let (r, st) := fstat fd w.junk
  notFoundIf w (r < 0)
  notFoundIf w st.isdir
  sendFound w fd st.size

def respond (w : World) (r : Int) : HttpM Unit :=
  if r = -eBadReq then ignore (sendError w 400)
  else if r < 0 then throw .panic
  else ignore (sendFile w)

def handleClient (w : World) (stack : Stack) (sock : Int) : HttpM Unit :=
  match stack.received with
  | none => throw .panic
  | some data => do
    -- `memset(req, 0, sizeof(req))` clears as many bytes as a pointer has, which is only `sock`.
    modify fun s => { s with req := { s.req with sock := sock } }
    let r ← httpRequestParse w (data ++ stack.above) (data ++ stack.above')
    respond w r
    reqFree

end Httpd

def Client.enter (con : HttpRequest) : Client := ⟨con, [], [], [], []⟩

end Jos.User
