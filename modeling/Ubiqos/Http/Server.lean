import Mathlib.Data.BitVec
import Mathlib.Data.Set.List
import Ubiqos.Lib.Parts

/-!
What `modules/httpd/httpd.c` sends and how. `send_all` asks the socket to take
bytes until they are gone; what was asked of it and what it took is the `Line`.
The line keeps apart heads and bodies, which to the client are one stream.

The answers of the kernel while one request is served are an `Around`.
-/

namespace Ubiqos.Http

abbrev Byte := BitVec 8
abbrev Text := List Byte

def ascii (s : String) : Text := s.toList.map (fun c => BitVec.ofNat 8 c.toNat)

def Plain (t : Text) : Prop := 0 ∉ t

instance (t : Text) : Decidable (Plain t) := inferInstanceAs (Decidable (¬ 0 ∈ t))

structure CText where
  text : Text
  plain : Plain text

def pageMax : Nat := 2048
def sensorsPath : Text := ascii "/tmp/sensors.json"

/-- What `ubiqos_sock_send` answers to a call, by its number and the bytes offered. -/
abbrev Client := Nat → Nat → Int

inductive Sent
  | head (status type : Text) (length : Nat)
  | body (byte : Byte)
  | torn (byte : Byte)
  deriving DecidableEq

/-- The calls made so far and what was taken. `torn` is part of a head that did
not go out whole. -/
structure Line where
  asked : Nat
  sent : List Sent

/-- The loop of `send_all`: whether all has gone, the calls made and the bytes taken. -/
def sendFrom (client : Client) : Nat → Nat → Nat → Text → Bool × Nat × Text
  | _, _, asked, [] => (true, asked, [])
  | 0, _, asked, _ :: _ => (false, asked, [])
  | fuel + 1, stalled, asked, byte :: more =>
    let sent := client asked (more.length + 1)
    if sent < 0 then (false, asked + 1, [])
    else if sent = 0 then
      if 1000 < stalled + 1 then (false, asked + 1, [])
      else sendFrom client fuel (stalled + 1) (asked + 1) (byte :: more)
    else
      let rest := sendFrom client fuel 0 (asked + 1) ((byte :: more).drop sent.toNat)
      (rest.1, rest.2.1, (byte :: more).take sent.toNat ++ rest.2.2)

def sendWhole (client : Client) (p : Text) (asked : Nat) : Bool × Nat × Text :=
  sendFrom client (1001 * p.length) 0 asked p

def sendAll (client : Client) (p : Text) (line : Line) : Bool × Line :=
  let done := sendWhole client p line.asked
  (done.1, ⟨done.2.1, line.sent ++ done.2.2.map .body⟩)

def sendStr (client : Client) (s : Text) (line : Line) : Line :=
  (sendAll client (s.takeWhile (· ≠ 0)) line).2

def decimals : Nat → Nat → Text
  | 0, _ => []
  | n + 1, v =>
    BitVec.ofNat 8 (0x30 + v % 10) :: if v / 10 = 0 then [] else decimals n (v / 10)

def u32ToDec (v : Nat) : Text := (decimals 11 v).reverse

def headText (status type : Text) (len : Nat) : Text :=
  (ascii "HTTP/1.1 " ++ status ++ ascii "\r\nContent-Type: " ++ type ++
      ascii "\r\nContent-Length: ").take 120 ++
    u32ToDec len ++ ascii "\r\nConnection: keep-alive\r\n\r\n"

def sendHead (client : Client) (status type : Text) (len : Nat) (line : Line) : Line :=
  let done := sendWhole client (headText status type len) line.asked
  ⟨done.2.1, line.sent ++ if done.1 then [.head status type len] else done.2.2.map .torn⟩

def sendJson (client : Client) (status body : Text) (line : Line) : Line :=
  (sendAll client body (sendHead client status (ascii "application/json") body.length line)).2

/-- `/dev/i2c`: whether a write is answered, and what a read of so many bytes gives. -/
structure Bus where
  writes : Text → Bool
  reads : Nat → Option Text

inductive MemInfo
  | largestFree
  | bulkFree
  | bulkSize
  | processes
  | asserts

/-- What the kernel answers while a request is served. The sensors' file is read
once by itself, so what that reading gave stands apart from the files. `stale` is
what lies in the second byte of a path that is empty. -/
structure Around where
  modules : List Text
  volumes : List CText
  entries : List (CText × Nat)
  meminfo : MemInfo → Nat
  bus : Option Bus
  sensors : Option (Option Text)
  size : Text → Option Nat
  opens : Text → Bool
  reads : Text → List (Option Text)
  stale : Byte

def joined : List Text → Text
  | [] => []
  | [item] => item
  | item :: rest => item ++ 0x2c :: joined rest

def lower (c : Byte) : Byte := if 0x41 ≤ c ∧ c ≤ 0x5a then c + 0x20 else c

def prettyName (raw : Text) : Text :=
  if raw.length ≠ 11 ∨ 0x2e ∈ raw then raw
  else
    ((raw.take 8).takeWhile (· ≠ 0x20)).map lower ++
      if raw[8]? ≠ some 0x20 then 0x2e :: ((raw.drop 8).takeWhile (· ≠ 0x20)).map lower else []

def cardPresent (env : Around) : Bool :=
  env.volumes.any (fun raw => prettyName raw.text == ascii "sd")

def statusJson (env : Around) : Text :=
  let rows := [("sramFree", env.meminfo .largestFree), ("psramFree", env.meminfo .bulkFree),
    ("psramTotal", env.meminfo .bulkSize), ("processes", env.meminfo .processes),
    ("assertions", env.meminfo .asserts), ("card", if cardPresent env then 1 else 0)]
  0x7b :: joined (rows.map fun row => 0x22 :: ascii row.1 ++ [0x22, 0x3a] ++ u32ToDec row.2) ++ [0x7d]

def listing : List (CText × Nat) → Text → Text
  | [], out => out
  | (raw, size) :: rest, out =>
    if out.length + 200 < pageMax then
      listing rest (out ++ ascii "<li><a href=\"/sd/" ++ prettyName raw.text ++ ascii "\">" ++
        prettyName raw.text ++ ascii "</a> " ++ u32ToDec size)
    else out

def indexPage (env : Around) : Text :=
  listing env.entries
      (ascii "<!doctype html><meta charset=\"utf-8\"><title>/sd</title><h1>/sd</h1><ul>") ++
    ascii "</ul><p><a href=\"/\">sensors</a>"

def hexval (c : Byte) : Option Nat :=
  if 0x30 ≤ c ∧ c ≤ 0x39 then some (c.toNat - 0x30)
  else if 0x61 ≤ c ∧ c ≤ 0x66 then some (c.toNat - 0x61 + 10)
  else if 0x41 ≤ c ∧ c ≤ 0x46 then some (c.toNat - 0x41 + 10)
  else none

/-- The value of `name=` in the query. -/
def param (query name : Text) : Option Text :=
  (query.splitOn 0x26).findSome? (fun part => part.dropPrefix? (name ++ [0x3d]))

def hexDigits : Text → Nat → Option Nat
  | [], v => some v
  | c :: rest, v => (hexval c).bind fun d => hexDigits rest (v * 16 + d)

def parseHex (s : Text) : Option Nat :=
  let s := if (ascii "0x").isPrefixOf s || (ascii "0X").isPrefixOf s then s.drop 2 else s
  if s = [] ∨ 8 < s.length then none else hexDigits s 0

def hexBytes : Text → Option Text
  | hi :: lo :: rest =>
    match hexval hi, hexval lo, hexBytes rest with
    | some hi, some lo, some rest => some (BitVec.ofNat 8 (hi * 16 + lo) :: rest)
    | _, _, _ => none
  | _ => some []

def countOf : Text → Nat → Option Nat
  | [], v => some v
  | c :: rest, v =>
    if 0x30 ≤ c ∧ c ≤ 0x39 then countOf rest ((v * 10 + (c.toNat - 0x30)) % 2 ^ 32) else none

def i2cWriteMax : Nat := 32
def i2cMaxRead : Nat := 64

def i2cRequest (query address : Text) : Option (Nat × Text × Nat) :=
  let w := (param query (ascii "w")).getD []
  match parseHex address with
  | none => none
  | some addr =>
    if addr ≤ 0x7f ∧ w.length % 2 = 0 ∧ w.length / 2 ≤ i2cWriteMax then
      match hexBytes w, countOf ((param query (ascii "n")).getD []) 0 with
      | some bytes, some count =>
        if i2cMaxRead < count ∨ (w = [] ∧ count = 0) then none else some (addr, bytes, count)
      | _, _ => none
    else none

/-- `api_i2c`: the status and the body. -/
def i2cReply (env : Around) (query : Text) : Text × Text :=
  match env.bus with
  | none =>
    (ascii "503 Service Unavailable",
      ascii "\x7b\"ok\":false,\"error\":\"no I2C bus on this board\"\x7d")
  | some bus =>
    match param query (ascii "addr") with
    | none =>
      let found := (List.range' 0x08 0x70).filter fun addr =>
        bus.writes [BitVec.ofNat 8 addr, 0, 1, 0]
      (ascii "200 OK",
        ascii "\x7b\"ok\":true,\"devices\":[" ++ joined (found.map u32ToDec) ++ ascii "]\x7d")
    | some address =>
      match i2cRequest query address with
      | none =>
        (ascii "400 Bad Request",
          ascii "\x7b\"ok\":false,\"error\":\"addr is hex, w is hex bytes (up to 32), n is 0 to 64, and one of w and n is needed\"\x7d")
      | some (addr, bytes, count) =>
        let written := bus.writes
          ([BitVec.ofNat 8 addr, BitVec.ofNat 8 bytes.length, BitVec.ofNat 8 count, 0] ++ bytes)
        if written then
          let got := if count = 0 then [] else (bus.reads count).getD []
          (ascii "200 OK",
            ascii "\x7b\"ok\":true,\"addr\":" ++ u32ToDec addr ++ ascii ",\"data\":[" ++
              joined (got.map fun byte => u32ToDec byte.toNat) ++ ascii "]\x7d")
        else
          (ascii "200 OK",
            ascii "\x7b\"ok\":false,\"addr\":" ++ u32ToDec addr ++
              ascii ",\"error\":\"no answer\"\x7d")

def apiI2c (client : Client) (env : Around) (query : Text) (line : Line) : Line :=
  sendJson client (i2cReply env query).1 (i2cReply env query).2 line

end Ubiqos.Http

/-!
The requests of one connection. A request ends at its blank line, which the
request loop looks for across receives while it keeps only the first bytes, and
`serve` answers it. Every answer is one response of the length it announces
exactly when each file that is served was opened and gave as many bytes as its
size was said to be.
-/

namespace Ubiqos.Http

open Matcher

def reqMax : Nat := 256
def blankLine : Text := ascii "\r\n\r\n"

structure Pages where
  sensor : CText
  board : CText

def fileType (path : Text) : Text :=
  if 4 < path.length ∧ ascii ".txt" <:+ path then ascii "text/plain; charset=utf-8"
  else if 5 < path.length ∧ ascii ".html" <:+ path then ascii "text/html; charset=utf-8"
  else if 5 < path.length ∧ ascii ".json" <:+ path then ascii "application/json"
  else ascii "application/octet-stream"

/-- The loop of `send_file`: a read that gives nothing or fails ends it. -/
def sendReads (client : Client) : List (Option Text) → Line → Line
  | some (byte :: more) :: rest, line =>
    let sent := sendAll client (byte :: more) line
    if sent.1 then sendReads client rest sent.2 else sent.2
  | _, line => line

def sendFile (client : Client) (env : Around) (path : Text) (asType : Option Text) (line : Line) :
    Bool × Line :=
  match env.size path with
  | none => (false, line)
  | some size =>
    let line := sendHead client (ascii "200 OK") (asType.getD (fileType path)) size line
    if env.opens path then (true, sendReads client (env.reads path) line) else (false, line)

def hasModule (env : Around) (name : Text) : Bool := env.modules.contains name

def pathOf (req : Text) : Text :=
  ((req.drop 4).takeWhile fun c => c ≠ 0 ∧ c ≠ 0x20 ∧ c ≠ 0x0d).take 127

def pathByte (env : Around) (path : Text) (i : Nat) : Byte :=
  if i = path.length then 0 else (path[i]?).getD env.stale

def published (env : Around) : Option Text :=
  match env.sensors with
  | some (some got) => if 0 < got.length ∧ got.length < pageMax then some got else none
  | _ => none

def serveSensors (client : Client) (env : Around) (line : Line) : Line :=
  match published env with
  | some got =>
    (sendAll client got
      (sendHead client (ascii "200 OK") (ascii "application/json") got.length line)).2
  | none =>
    let sent := sendFile client env sensorsPath (some (ascii "application/json")) line
    if sent.1 then sent.2
    else
      let none := ascii "\x7b\"sensors\":[],\"count\":0,\"scanning\":false\x7d"
      sendStr client none
        (sendHead client (ascii "200 OK") (ascii "application/json") none.length sent.2)

def serve (client : Client) (pages : Pages) (env : Around) (req : Text) (line : Line) : Line :=
  if !(ascii "GET ").isPrefixOf req then
    sendStr client (ascii "method not allowed")
      (sendHead client (ascii "405 Method Not Allowed") (ascii "text/plain") 18 line)
  else
    let path := pathOf req
    let html := ascii "text/html; charset=utf-8"
    if (ascii "/api/i2c").isPrefixOf path &&
        (pathByte env path 8 == 0 || pathByte env path 8 == 0x3f) then
      apiI2c client env (path.drop 9) line
    else if (ascii "/api/status").isPrefixOf path then
      sendStr client (statusJson env)
        (sendHead client (ascii "200 OK") (ascii "application/json") (statusJson env).length line)
    else if (ascii "/api/sensors").isPrefixOf path then serveSensors client env line
    else if (pathByte env path 1 == 0 && !hasModule env (ascii "hibouair")) ||
        (ascii "/board").isPrefixOf path then
      sendStr client pages.board.text
        (sendHead client (ascii "200 OK") html pages.board.text.length line)
    else if pathByte env path 1 == 0 || (ascii "/sensors").isPrefixOf path then
      sendStr client pages.sensor.text
        (sendHead client (ascii "200 OK") html pages.sensor.text.length line)
    else if (ascii "/files").isPrefixOf path then
      sendStr client (indexPage env)
        (sendHead client (ascii "200 OK") html (indexPage env).length line)
    else
      let sent := sendFile client env path none line
      if sent.1 then sent.2
      else
        sendStr client (ascii "not found")
          (sendHead client (ascii "404 Not Found") (ascii "text/plain") 9 sent.2)

/-- What is kept of a request that has not ended, and how much of the blank line
has been seen. -/
structure Conn where
  req : Text
  held : Nat
  deriving DecidableEq

def Conn.fresh : Conn := ⟨[], 0⟩

def nextHeld (held : Nat) (ch : Byte) : Nat :=
  if blankLine[held]? = some ch then held + 1 else if ch = 0x0d then 1 else 0

structure Served where
  conn : Conn
  count : Nat
  line : Line

def Served.start : Served := ⟨.fresh, 0, ⟨0, []⟩⟩

section Run
variable (client : Client) (pages : Pages) (around : Nat → Around)

def takeByte (s : Served) (ch : Byte) : Served :=
  let req := if s.conn.req.length < reqMax - 1 then s.conn.req ++ [ch] else s.conn.req
  let held := nextHeld s.conn.held ch
  if held < 4 then { s with conn := ⟨req, held⟩ }
  else ⟨.fresh, s.count + 1, serve client pages (around s.count) req s.line⟩

def receive (s : Served) (chunk : Text) : Served := chunk.foldl (takeByte client pages around) s

def run (chunks : List Text) : Served := chunks.foldl (receive client pages around) .start

end Run

/-- The client keeps taking bytes: within a thousand answers of nothing comes one
that takes some. -/
structure KeepsTaking (client : Client) : Prop where
  stays : ∀ i n, 0 ≤ client i n
  takes : ∀ i, ∃ k ≤ 1000, ∀ n, 0 < n → 0 < client (i + k) n

structure Response where
  status : Text
  type : Text
  body : Text
  deriving DecidableEq

def Response.sent (r : Response) : List Sent :=
  .head r.status r.type r.body.length :: r.body.map .body

structure IsRequest (req : Text) : Prop where
  ends : blankLine <:+ req
  first : Unended blankLine req

instance (req : Text) : Decidable (IsRequest req) :=
  decidable_of_iff (blankLine <:+ req ∧ Unended blankLine req)
    ⟨fun both => ⟨both.1, both.2⟩, fun both => ⟨both.ends, both.first⟩⟩

def Open (rest : Text) : Prop := ∀ front, front <+: rest → ¬ blankLine <:+ front

instance (rest : Text) : Decidable (Open rest) :=
  decidable_of_iff (∀ front ∈ rest.inits, ¬ blankLine <:+ front)
    (by simp only [List.mem_inits, Open])

def fileOf (env : Around) (req : Text) : Option Text :=
  let path := pathOf req
  if !(ascii "GET ").isPrefixOf req then none
  else if (ascii "/api/i2c").isPrefixOf path &&
      (pathByte env path 8 == 0 || pathByte env path 8 == 0x3f) then none
  else if (ascii "/api/status").isPrefixOf path then none
  else if (ascii "/api/sensors").isPrefixOf path then
    match published env with
    | some _ => none
    | none => some sensorsPath
  else if (pathByte env path 1 == 0 && !hasModule env (ascii "hibouair")) ||
      (ascii "/board").isPrefixOf path then none
  else if pathByte env path 1 == 0 || (ascii "/sensors").isPrefixOf path then none
  else if (ascii "/files").isPrefixOf path then none
  else some path

def given : List (Option Text) → Text
  | some (byte :: more) :: rest => byte :: more ++ given rest
  | _ => []

def Steady (env : Around) (path : Text) : Prop :=
  ∀ size ∈ env.size path, env.opens path = true ∧ (given (env.reads path)).length = size

section Sending
variable {client : Client} (keeps : KeepsTaking client)
include keeps

theorem sendFrom_takes (fuel stalled asked : Nat) (p : Text) (waits : stalled ≤ 1000)
    (soon : ∃ k, stalled + k ≤ 1000 ∧ ∀ n, 0 < n → 0 < client (asked + k) n)
    (enough : 1001 * p.length ≤ fuel + stalled) :
    ∃ asked', sendFrom client fuel stalled asked p = (true, asked', p) := by
  induction fuel generalizing stalled asked p with
  | zero =>
    cases p with
    | nil => exact ⟨asked, rfl⟩
    | cons byte more =>
      simp only [List.length_cons] at enough
      omega
  | succ fuel ih =>
    cases p with
    | nil => exact ⟨asked, rfl⟩
    | cons byte more =>
      have stays := keeps.stays asked (more.length + 1)
      simp only [List.length_cons] at enough
      by_cases nothing : client asked (more.length + 1) = 0
      · -- a call that takes nothing is the one waited for's predecessor
        obtain ⟨k, within, takes⟩ := soon
        have later : k ≠ 0 := by
          rintro rfl
          have taken := takes (more.length + 1) (by omega)
          rw [Nat.add_zero, nothing] at taken
          exact absurd taken (lt_irrefl 0)
        obtain ⟨asked', sent⟩ := ih (stalled + 1) (asked + 1) (byte :: more) (by omega)
          ⟨k - 1, by omega, fun n some' => by
            have taken := takes n some'
            rwa [show asked + 1 + (k - 1) = asked + k by omega]⟩
          (by simp only [List.length_cons]; omega)
        refine ⟨asked', ?_⟩
        rw [sendFrom]
        simp only [nothing, lt_irrefl, if_false, if_true]
        rw [if_neg (by omega), sent]
      · obtain ⟨k, within, takes⟩ := keeps.takes (asked + 1)
        obtain ⟨asked', sent⟩ := ih 0 (asked + 1)
          ((byte :: more).drop (client asked (more.length + 1)).toNat) (by omega)
          ⟨k, by omega, takes⟩ (by simp only [List.length_drop, List.length_cons]; omega)
        refine ⟨asked', ?_⟩
        rw [sendFrom]
        simp only [nothing, if_false, sent, List.take_append_drop]
        rw [if_neg (by omega)]

theorem sendWhole_takes (p : Text) (asked : Nat) :
    ∃ asked', sendWhole client p asked = (true, asked', p) := by
  obtain ⟨k, within, takes⟩ := keeps.takes asked
  exact sendFrom_takes keeps _ 0 asked p (by omega) ⟨k, by omega, takes⟩ (Nat.le_refl _)

theorem sendAll_takes (p : Text) (line : Line) :
    (sendAll client p line).1 = true ∧
      (sendAll client p line).2.sent = line.sent ++ p.map .body := by
  obtain ⟨asked', sent⟩ := sendWhole_takes keeps p line.asked
  simp [sendAll, sent]

theorem sendHead_takes (status type : Text) (len : Nat) (line : Line) :
    (sendHead client status type len line).sent = line.sent ++ [.head status type len] := by
  obtain ⟨asked', sent⟩ := sendWhole_takes keeps (headText status type len) line.asked
  simp [sendHead, sent]

theorem sendJson_takes (status body : Text) (line : Line) :
    (sendJson client status body line).sent =
      line.sent ++ Response.sent ⟨status, ascii "application/json", body⟩ := by
  simp [sendJson, (sendAll_takes keeps _ _).2, sendHead_takes keeps, Response.sent]

theorem sendStr_takes {s : Text} (plain : Plain s) (status type : Text) (line : Line) :
    (sendStr client s (sendHead client status type s.length line)).sent =
      line.sent ++ Response.sent ⟨status, type, s⟩ := by
  have whole : s.takeWhile (· ≠ 0) = s := by
    rw [List.takeWhile_eq_self_iff]
    intro byte member
    simp only [decide_eq_true_eq]
    rintro rfl
    exact plain member
  simp only [sendStr, whole]
  rw [(sendAll_takes keeps _ _).2, sendHead_takes keeps]
  simp [Response.sent]

theorem sendReads_takes (reads : List (Option Text)) (line : Line) :
    (sendReads client reads line).sent = line.sent ++ (given reads).map .body := by
  fun_induction sendReads client reads line with
  | case1 line byte more rest sent whole ih =>
    rw [ih, (sendAll_takes keeps _ _).2]
    simp [given]
  | case2 line byte more rest sent short =>
    exact absurd (sendAll_takes keeps _ _).1 short
  | case3 reads line other =>
    have nothing : given reads = [] := by
      unfold given
      split
      · rename_i byte more rest
        exact (other byte more rest rfl).elim
      · rfl
    simp [nothing]

end Sending

def Sent.isHead : Sent → Bool
  | .head .. => true
  | _ => false

theorem Response.single (r : Response) : Parts.Single Sent.isHead r.sent := by
  refine ⟨⟨_, _, rfl, rfl⟩, ?_⟩
  have bodies : (r.body.map Sent.body).countP Sent.isHead = 0 := by
    simp [List.countP_eq_zero, Sent.isHead]
  rw [Response.sent, List.countP_cons, bodies]
  rfl

/-- What a request adds to the line begins with a head, and is one response of
the length announced exactly under this condition. -/
def Adds (line line' : Line) (steady : Prop) : Prop :=
  ∃ out, line'.sent = line.sent ++ out ∧ Parts.Begins Sent.isHead out ∧
    ((∃ r : Response, out = r.sent) ↔ steady)

theorem adds_response {line line' : Line} {r : Response} {steady : Prop} (holds : steady)
    (sent : line'.sent = line.sent ++ r.sent) : Adds line line' steady :=
  ⟨r.sent, sent, r.single.begins, fun _ => holds, fun _ => ⟨r, rfl⟩⟩

theorem adds_twice {line line' : Line} {status type : Text} {len : Nat} {r : Response}
    {steady : Prop} (broken : ¬ steady)
    (sent : line'.sent = line.sent ++ .head status type len :: r.sent) : Adds line line' steady := by
  refine ⟨_, sent, ⟨_, _, rfl, rfl⟩, ?_, fun holds => absurd holds broken⟩
  rintro ⟨other, same⟩
  have once := other.single.once
  rw [← same, List.countP_cons, r.single.once] at once
  simp [Sent.isHead] at once

section Pages

@[simp] theorem plain_nil : Plain [] := by simp [Plain]

@[simp] theorem plain_cons {c : Byte} {t : Text} : Plain (c :: t) ↔ c ≠ 0 ∧ Plain t := by
  simp only [Plain, List.mem_cons, not_or, ne_comm]

@[simp] theorem plain_append {s t : Text} : Plain (s ++ t) ↔ Plain s ∧ Plain t := by
  simp only [Plain, List.mem_append, not_or]

theorem Plain.subset {s t : Text} (plain : Plain t) (within : s ⊆ t) : Plain s :=
  fun member => plain (within member)

theorem decimals_plain (n v : Nat) : Plain (decimals n v) := by
  induction n generalizing v with
  | zero => exact plain_nil
  | succ n ih =>
    have digit : BitVec.ofNat 8 (0x30 + v % 10) ≠ 0 := by
      intro zero
      have value := congrArg BitVec.toNat zero
      have small : v % 10 < 10 := Nat.mod_lt v (by decide)
      rw [BitVec.toNat_ofNat, Nat.mod_eq_of_lt (by omega)] at value
      change 0x30 + v % 10 = 0 at value
      omega
    rw [decimals, plain_cons]
    refine ⟨digit, ?_⟩
    split
    · exact plain_nil
    · exact ih (v / 10)

theorem u32ToDec_plain (v : Nat) : Plain (u32ToDec v) :=
  (decimals_plain 11 v).subset (List.reverse_subset.mpr (List.Subset.refl _))

theorem joined_plain {items : List Text} (plain : ∀ item ∈ items, Plain item) :
    Plain (joined items) := by
  fun_induction joined items with
  | case1 => exact plain_nil
  | case2 item => exact plain item (by simp)
  | case3 item rest more ih =>
    have here := plain item (by simp)
    have later := ih fun other member => plain other (by simp [member])
    rw [plain_append, plain_cons]
    exact ⟨here, by decide, later⟩

theorem lower_plain {c : Byte} (plain : c ≠ 0) : lower c ≠ 0 := by
  unfold lower
  split
  · bv_omega
  · exact plain

theorem lowered_plain {name : Text} (plain : Plain name) : Plain (name.map lower) := by
  intro member
  obtain ⟨c, isIn, zero⟩ := List.mem_map.mp member
  have nonzero : c ≠ 0 := by
    rintro rfl
    exact plain isIn
  exact lower_plain nonzero zero

theorem prettyName_plain {raw : Text} (plain : Plain raw) : Plain (prettyName raw) := by
  have part : ∀ piece : Text, piece ⊆ raw → Plain ((piece.takeWhile (· ≠ 0x20)).map lower) :=
    fun piece within =>
      lowered_plain (plain.subset (fun _ member => within ((List.takeWhile_sublist _).subset member)))
  unfold prettyName
  split
  · exact plain
  · rw [plain_append]
    refine ⟨part _ (List.take_subset 8 raw), ?_⟩
    split
    · rw [plain_cons]
      exact ⟨by decide, part _ (List.drop_subset 8 raw)⟩
    · exact plain_nil

theorem statusJson_plain (env : Around) : Plain (statusJson env) := by
  unfold statusJson
  rw [List.cons_append, plain_cons, plain_append]
  refine ⟨by decide, joined_plain ?_, by decide⟩
  intro item member
  obtain ⟨⟨key, value⟩, isRow, rfl⟩ := List.mem_map.mp member
  have known : key ∈ ["sramFree", "psramFree", "psramTotal", "processes", "assertions", "card"] :=
    List.mem_map_of_mem (f := Prod.fst) isRow
  have named : ∀ key ∈ ["sramFree", "psramFree", "psramTotal", "processes", "assertions", "card"],
      Plain (ascii key) := by decide
  rw [plain_append, plain_append, plain_cons]
  exact ⟨⟨⟨by decide, named key known⟩, by decide⟩, u32ToDec_plain value⟩

theorem listing_plain (entries : List (CText × Nat)) {out : Text} (plain : Plain out) :
    Plain (listing entries out) := by
  induction entries generalizing out with
  | nil => exact plain
  | cons entry rest ih =>
    obtain ⟨raw, size⟩ := entry
    unfold listing
    split
    · have name := prettyName_plain raw.plain
      apply ih
      simp only [plain_append]
      exact ⟨⟨⟨⟨⟨⟨plain, by decide⟩, name⟩, by decide⟩, name⟩, by decide⟩, u32ToDec_plain size⟩
    · exact plain

theorem indexPage_plain (env : Around) : Plain (indexPage env) := by
  unfold indexPage
  rw [plain_append]
  exact ⟨listing_plain env.entries (by decide), by decide⟩

end Pages

section Answers
variable {client : Client} (keeps : KeepsTaking client) (env : Around) (path : Text)
include keeps

theorem sendFile_refused (asType : Option Text) (line : Line) {size : Nat}
    (known : env.size path = some size) (refused : env.opens path = false) :
    (sendFile client env path asType line).1 = false ∧
      (sendFile client env path asType line).2.sent =
        line.sent ++ [.head (ascii "200 OK") (asType.getD (fileType path)) size] := by
  simp [sendFile, known, refused, sendHead_takes keeps]

theorem sendFile_read (asType : Option Text) (line : Line) {size : Nat}
    (known : env.size path = some size) (opened : env.opens path = true) :
    (sendFile client env path asType line).1 = true ∧
      (sendFile client env path asType line).2.sent =
        line.sent ++ .head (ascii "200 OK") (asType.getD (fileType path)) size ::
          (given (env.reads path)).map .body := by
  simp [sendFile, known, opened, sendReads_takes keeps, sendHead_takes keeps]

theorem sendFile_adds (asType : Option Text) (line : Line) (other : Line → Line)
    (instead : ∀ line, ∃ r : Response, (other line).sent = line.sent ++ r.sent) :
    Adds line
      (if (sendFile client env path asType line).1 then (sendFile client env path asType line).2
        else other (sendFile client env path asType line).2) (Steady env path) := by
  cases known : env.size path with
  | none =>
    obtain ⟨r, sent⟩ := instead line
    have steady : Steady env path := by
      intro size isSize
      rw [known] at isSize
      cases isSize
    have missing : sendFile client env path asType line = (false, line) := by
      simp [sendFile, known]
    rw [missing]
    exact adds_response steady sent
  | some size =>
    cases opened : env.opens path with
    | false =>
      obtain ⟨failed, sent⟩ := sendFile_refused keeps env path asType line known opened
      obtain ⟨r, sent'⟩ := instead (sendFile client env path asType line).2
      have broken : ¬ Steady env path := by
        intro steady
        have reads := (steady size known).1
        rw [opened] at reads
        cases reads
      rw [failed]
      apply adds_twice broken (r := r)
      rw [if_neg Bool.false_ne_true, sent', sent, List.append_assoc]
      rfl
    | true =>
      obtain ⟨done, sent⟩ := sendFile_read keeps env path asType line known opened
      rw [done, if_pos rfl]
      refine ⟨_, sent, ⟨_, _, rfl, rfl⟩, ?_, ?_⟩
      · rintro ⟨r, same⟩ size' isSize
        rw [known] at isSize
        cases isSize
        obtain ⟨announced, bodies⟩ := List.cons.inj same
        have lengths := congrArg List.length bodies
        simp only [List.length_map] at lengths
        exact ⟨opened, lengths.trans (Sent.head.inj announced).2.2.symm⟩
      · intro steady
        refine ⟨⟨ascii "200 OK", asType.getD (fileType path), given (env.reads path)⟩, ?_⟩
        simp [Response.sent, (steady size known).2]

theorem serveSensors_adds (line : Line) :
    Adds line (serveSensors client env line)
      (∀ path, (match published env with | some _ => none | none => some sensorsPath) = some path →
        Steady env path) := by
  unfold serveSensors
  cases once : published env with
  | some got =>
    apply adds_response (r := ⟨ascii "200 OK", ascii "application/json", got⟩)
    · intro path isPath
      cases isPath
    · simp [(sendAll_takes keeps _ _).2, sendHead_takes keeps, Response.sent]
  | none =>
    have file := sendFile_adds keeps env sensorsPath (some (ascii "application/json")) line
      (fun line => sendStr client (ascii "\x7b\"sensors\":[],\"count\":0,\"scanning\":false\x7d")
        (sendHead client (ascii "200 OK") (ascii "application/json")
          (ascii "\x7b\"sensors\":[],\"count\":0,\"scanning\":false\x7d").length line))
      (fun line => ⟨_, sendStr_takes keeps (by decide) _ _ line⟩)
    obtain ⟨out, sent, begins, exact⟩ := file
    refine ⟨out, sent, begins, exact.trans ?_⟩
    simp

theorem serve_adds (pages : Pages) (req : Text) (line : Line) :
    Adds line (serve client pages env req line) (∀ path ∈ fileOf env req, Steady env path) := by
  unfold serve fileOf
  split
  · apply adds_response (by simp)
    exact sendStr_takes keeps (s := ascii "method not allowed") (by decide) _ _ line
  · dsimp only
    split
    · apply adds_response (by simp)
      exact sendJson_takes keeps _ _ line
    split
    · apply adds_response (by simp)
      exact sendStr_takes keeps (statusJson_plain env) _ _ line
    split
    · exact serveSensors_adds keeps env line
    split
    · apply adds_response (by simp)
      exact sendStr_takes keeps pages.board.plain _ _ line
    split
    · apply adds_response (by simp)
      exact sendStr_takes keeps pages.sensor.plain _ _ line
    split
    · apply adds_response (by simp)
      exact sendStr_takes keeps (indexPage_plain env) _ _ line
    · have file := sendFile_adds keeps env (pathOf req) none line
        (fun line => sendStr client (ascii "not found")
          (sendHead client (ascii "404 Not Found") (ascii "text/plain") 9 line))
        (fun line => ⟨_, sendStr_takes keeps (s := ascii "not found") (by decide) _ _ line⟩)
      obtain ⟨out, sent, begins, exact⟩ := file
      refine ⟨out, sent, begins, exact.trans ?_⟩
      simp

end Answers

section Requests
variable {client : Client} {pages : Pages} {around : Nat → Around}

theorem nextHeld_exact : Matcher.Exact blankLine nextHeld := by
  have pattern (ch : Byte) (of : ch = 0x0d ∨ ch = 0x0a) : ∀ m < blankLine.length,
      Matcher.Held blankLine (blankLine.take m ++ [ch]) (nextHeld m ch) := by
    rcases of with rfl | rfl <;> decide
  intro m within ch
  by_cases of : ch = 0x0d ∨ ch = 0x0a
  · exact pattern ch of m within
  · have spelled : blankLine = [0x0d, 0x0a, 0x0d, 0x0a] := by decide
    have foreign : ch ∉ blankLine := by
      rw [spelled]
      simp only [List.mem_cons, List.not_mem_nil, or_false]
      rintro (cr | lf | cr | lf)
      exacts [of (Or.inl cr), of (Or.inr lf), of (Or.inl cr), of (Or.inr lf)]
    have none : nextHeld m ch = 0 := by
      rw [nextHeld, if_neg fun same => foreign (List.mem_of_getElem? same),
        if_neg fun same => of (Or.inl same)]
    rw [none]
    refine ⟨Nat.zero_le _, List.nil_suffix, fun k _ ends => ?_⟩
    rcases List.eq_nil_or_concat (blankLine.take k) with empty | ⟨front, last, whole⟩
    · rcases List.take_eq_nil_iff.mp empty with rfl | nil
      · exact Nat.le_refl 0
      · cases nil
    · have listed : last ∈ blankLine.take k := by simp [whole]
      rw [whole, List.concat_eq_append] at ends
      have same := (Matcher.suffix_snoc.mp ends).2
      exact absurd (same ▸ List.mem_of_mem_take listed) foreign

theorem Open.unended {rest : Text} (isOpen : Open rest) : Unended blankLine rest :=
  fun front prior _ => isOpen front prior

theorem Open.front {rest : Text} {ch : Byte} (isOpen : Open (rest ++ [ch])) : Open rest :=
  fun front prior => isOpen front (prior.trans (List.prefix_append rest [ch]))

theorem kept_snoc (req : Text) (ch : Byte) :
    (if (req.take (reqMax - 1)).length < reqMax - 1 then req.take (reqMax - 1) ++ [ch]
      else req.take (reqMax - 1)) = (req ++ [ch]).take (reqMax - 1) := by
  rw [List.length_take]
  split
  · rename_i short
    have fits : req.length < reqMax - 1 := by omega
    rw [List.take_of_length_le (Nat.le_of_lt fits), List.take_of_length_le (by simp; omega)]
  · rename_i long
    rw [List.take_append_of_le_length (by omega)]

theorem hear_open {rest : Text} (isOpen : Open rest) (count : Nat) (line : Line) :
    rest.foldl (takeByte client pages around) ⟨.fresh, count, line⟩ =
      ⟨⟨rest.take (reqMax - 1), rest.foldl nextHeld 0⟩, count, line⟩ := by
  induction rest using List.reverseRecOn with
  | nil => rfl
  | append_singleton rest ch ih =>
    have held := foldl_held nextHeld_exact isOpen.unended
    have short : (rest ++ [ch]).foldl nextHeld 0 < 4 :=
      Nat.lt_of_le_of_ne held.within
        fun whole => isOpen _ (List.prefix_refl _) (held.whole.mp whole)
    rw [List.foldl_append] at short
    rw [List.foldl_append, ih isOpen.front, List.foldl_append]
    simp only [List.foldl_cons, List.foldl_nil, takeByte] at short ⊢
    rw [if_pos short, kept_snoc]

theorem hear_request {req : Text} (isRequest : IsRequest req) (count : Nat) (line : Line) :
    req.foldl (takeByte client pages around) ⟨.fresh, count, line⟩ =
      ⟨.fresh, count + 1, serve client pages (around count) (req.take (reqMax - 1)) line⟩ := by
  cases req using List.reverseRecOn with
  | nil => exact absurd isRequest.ends (by decide)
  | append_singleton front ch =>
    obtain ⟨early, absent⟩ := isRequest.first.front
    have isOpen : Open front := by
      intro part prior
      by_cases all : part = front
      · rwa [all]
      · exact early part prior all
    have held := foldl_held nextHeld_exact isRequest.first
    have whole : (front ++ [ch]).foldl nextHeld 0 = 4 := held.whole.mpr isRequest.ends
    rw [List.foldl_append] at whole
    rw [List.foldl_append, hear_open isOpen]
    simp only [List.foldl_cons, List.foldl_nil, takeByte] at whole ⊢
    rw [whole, if_neg (by decide), kept_snoc]

theorem hear_requests (keeps : KeepsTaking client) {requests : List Text} {rest : Text}
    (whole : ∀ req ∈ requests, IsRequest req) (isOpen : Open rest) (count : Nat) (line : Line) :
    ∃ outs : List (List Sent), outs.length = requests.length ∧
      ((requests.flatten ++ rest).foldl (takeByte client pages around)
        ⟨.fresh, count, line⟩).line.sent = line.sent ++ outs.flatten ∧
      (∀ out ∈ outs, Parts.Begins Sent.isHead out) ∧
      ((∀ out ∈ outs, ∃ r : Response, out = r.sent) ↔ ∀ i req, requests[i]? = some req →
        ∀ path ∈ fileOf (around (count + i)) (req.take (reqMax - 1)),
          Steady (around (count + i)) path) := by
  induction requests generalizing count line with
  | nil =>
    refine ⟨[], rfl, ?_, by simp, by simp⟩
    rw [List.flatten_nil, List.nil_append, hear_open isOpen]
    simp
  | cons req requests ih =>
    obtain ⟨out, sent, begins, exact⟩ := serve_adds keeps (around count) pages
      (req.take (reqMax - 1)) line
    obtain ⟨outs, length, sent', begins', exact'⟩ := ih
      (fun other member => whole other (by simp [member])) (count + 1)
      (serve client pages (around count) (req.take (reqMax - 1)) line)
    refine ⟨out :: outs, by simp [length], ?_, ?_, ?_⟩
    · rw [List.flatten_cons, List.append_assoc, List.foldl_append,
        hear_request (whole req (by simp)), sent', sent]
      simp
    · rintro other (_ | ⟨_, member⟩)
      · exact begins
      · exact begins' other member
    · simp only [List.forall_mem_cons]
      rw [exact, exact']
      constructor
      · rintro ⟨here, later⟩ i other isOther
        cases i with
        | zero =>
          cases isOther
          exact here
        | succ i =>
          rw [show count + (i + 1) = count + 1 + i by omega]
          exact later i other isOther
      · intro all
        refine ⟨all 0 req rfl, ?_⟩
        intro i other isOther
        rw [show count + 1 + i = count + (i + 1) by omega]
        exact all (i + 1) other isOther

/-- However a stream of requests is cut into receives, what went out is one
response for each request that has ended, each as long as it announces, exactly
when every file asked for that had a size was opened and gave as many bytes. -/
theorem run_answers (keeps : KeepsTaking client) {chunks requests : List Text} {rest : Text}
    (cut : chunks.flatten = requests.flatten ++ rest) (whole : ∀ req ∈ requests, IsRequest req)
    (isOpen : Open rest) :
    (∃ responses : List Response, responses.length = requests.length ∧
      (run client pages around chunks).line.sent = responses.flatMap Response.sent) ↔
    ∀ i req, requests[i]? = some req →
      ∀ path ∈ fileOf (around i) (req.take (reqMax - 1)), Steady (around i) path := by
  have stream : run client pages around chunks =
      (requests.flatten ++ rest).foldl (takeByte client pages around) .start := by
    rw [← cut, List.foldl_flatten]
    rfl
  obtain ⟨outs, length, sent, begins, exact⟩ :=
    @hear_requests client pages around keeps requests rest whole isOpen 0 ⟨0, []⟩
  rw [← Served.start, ← stream, List.nil_append] at sent
  simp only [Nat.zero_add] at exact
  rw [← exact, sent]
  constructor
  · -- there are as many heads as requests, so no answer has two
    rintro ⟨responses, count, same⟩ out member
    rw [List.flatMap_def] at same
    have parts := Parts.parts_forced begins
      (by simp only [List.forall_mem_map]; exact fun r _ => r.single)
      (by rw [length, List.length_map, count]) same
    rw [parts] at member
    obtain ⟨r, _, rfl⟩ := List.mem_map.mp member
    exact ⟨r, rfl⟩
  · intro each
    obtain ⟨responses, rfl⟩ : outs ∈ Set.range (List.map Response.sent) := by
      rw [Set.range_list_map]
      intro out member
      obtain ⟨r, same⟩ := each out member
      exact ⟨r, same.symm⟩
    exact ⟨responses, by rw [← length, List.length_map], rfl⟩

end Requests

def slowly : Client := fun i n => if i % 2 = 0 then 0 else min n 100

theorem slowly_takes : KeepsTaking slowly := by
  constructor
  · intro i n
    unfold slowly
    split <;> omega
  · intro i
    by_cases even : i % 2 = 0
    · refine ⟨1, by omega, fun n some' => ?_⟩
      rw [slowly, if_neg (by omega)]
      omega
    · refine ⟨0, by omega, fun n some' => ?_⟩
      rw [slowly, Nat.add_zero, if_neg even]
      omega

def noPages : Pages := ⟨⟨[], by decide⟩, ⟨[], by decide⟩⟩

def holding (opens : Bool) (pieces : List Text) : Around where
  modules := []
  volumes := []
  entries := []
  meminfo _ := 0
  bus := none
  sensors := none
  size path := if path = ascii "/sd/a.txt" then some 4 else none
  opens _ := opens
  reads _ := pieces.map some
  stale := 0

def asks (path : String) : Text := ascii "GET " ++ ascii path ++ ascii " HTTP/1.1\r\n\r\n"

theorem run_answers_twice :
    ∃ responses : List Response, responses.length = 2 ∧
      (run slowly noPages (fun _ => holding true [ascii "ab", ascii "cd"])
        [asks "/sd/a.txt" ++ ascii "GE", ascii "T /b HTTP/1.1\r", ascii "\n\r\nGET"]).line.sent =
        responses.flatMap Response.sent := by
  apply (@run_answers _ _ _ slowly_takes _ [asks "/sd/a.txt", asks "/b"] (ascii "GET")
    (by decide +kernel) (by decide +kernel) (by decide +kernel)).mpr
  intro i req _ path _ size isSize
  simp only [holding, Option.mem_def] at isSize ⊢
  split at isSize
  · cases isSize
    exact ⟨trivial, by decide⟩
  · cases isSize

/-- The file is there when its size is asked and refused when it is opened: the
request gets a head with nothing behind it, and another response. -/
theorem refused_answered_twice :
    IsRequest (asks "/sd/a.txt") ∧
    (run slowly noPages (fun _ => holding false []) [asks "/sd/a.txt"]).line.sent =
      .head (ascii "200 OK") (ascii "text/plain; charset=utf-8") 4 ::
        Response.sent ⟨ascii "404 Not Found", ascii "text/plain", ascii "not found"⟩ ∧
    ¬ ∃ responses : List Response, responses.length = [asks "/sd/a.txt"].length ∧
      (run slowly noPages (fun _ => holding false []) [asks "/sd/a.txt"]).line.sent =
        responses.flatMap Response.sent := by
  have sent : (run slowly noPages (fun _ => holding false []) [asks "/sd/a.txt"]).line.sent =
      .head (ascii "200 OK") (ascii "text/plain; charset=utf-8") 4 ::
        Response.sent ⟨ascii "404 Not Found", ascii "text/plain", ascii "not found"⟩ := by
    decide +kernel
  refine ⟨by decide +kernel, sent, ?_⟩
  rintro ⟨responses, count, same⟩
  obtain ⟨r, rfl⟩ := List.length_eq_one_iff.mp count
  rw [sent, List.flatMap_singleton] at same
  have heads := congrArg (List.countP Sent.isHead) same
  rw [r.single.once] at heads
  exact absurd heads (by decide +kernel)

end Ubiqos.Http
